import Pigeon.Dispatch.Setup

/-! # What has to be known before a job runs

Whatever the operator, the disk and the tools answer: a job is run at most once, it was shown and agreed to, its addresses lead into
the keyring that the config was written from, and the binaries it needs were there. A run that is not interactive asks nothing.
-/
namespace Pigeon.Dispatch

open Library Keyring Rclone Transform Wizard
open Failing hiding ask orFail

set_option autoImplicit false

/-! ## What there is to know of a job -/

namespace Job

def addresses : Job → List Text
  | .copy plan => [plan.source, plan.destination]
  | .delete plan => [plan.source]
  | .transform plan _ _ => [plan.sourcePath, plan.destinationPath]

/-- How much is done at once. -/
def sizes : Job → List Nat
  | .copy plan => [plan.transfers, plan.checkers]
  | .delete plan => [plan.checkers]
  | .transform plan concurrency uploadTransfers =>
    [plan.downloadTransfers, plan.downloadCheckers, plan.maxPendingDownloads, concurrency, uploadTransfers]

def tools : Job → List Tool
  | .transform plan _ _ => plan.inputFileType.tools
  | _ => []

/-- What the operator sees of it. -/
def lines : Job → List Text
  | .copy plan => ["Source:      ".toList ++ plan.source, "Destination: ".toList ++ plan.destination]
  | .delete plan => ["Source: ".toList ++ plan.source, deleteWarning]
  | .transform plan _ _ =>
    transformLines plan.inputFileType plan.videoQuality plan.audioQuality plan.sourcePath plan.destinationPath

def failed : (job : Job) → job.Summary → Bool
  | .copy _, summary => summary.errors > 0
  | .delete _, summary => summary.errors > 0
  | .transform _ _ _, summary => TransformSummary.failed summary

def exitCode (job : Job) : Except Text job.Summary → Nat
  | .ok summary => if job.failed summary then failureExitCode else 0
  | .error _ => failureExitCode

end Job

/-- What was found out about a job. -/
structure Ready (store : Store) (job : Job) (exchanges : List Exchange) : Prop where
  loaded : ∃ path, ⟨.loadStore path, .ok store⟩ ∈ exchanges
  prepared : Prepared store exchanges
  routed : ∀ address ∈ job.addresses, ∃ target : RemoteTarget, store.containsAlias target.aliasName = true ∧ target.address = address
  sized : ∀ size ∈ job.sizes, 0 < size
  equipped : Equipped job.tools exchanges

theorem Ready.mono {store : Store} {job : Job} {exchanges more : List Exchange} (h : Ready store job exchanges)
    (hMore : exchanges ⊆ more) : Ready store job more where
  loaded := h.loaded.imp fun _ hLoaded => hMore hLoaded
  prepared := h.prepared.mono hMore
  routed := h.routed
  sized := h.sized
  equipped tool hTool := (h.equipped tool hTool).mono hMore

/-- It is ready, and what was shown of it was agreed to. -/
structure Authorized (quiet : Bool) (store : Store) (job : Job) (exchanges : List Exchange) : Prop where
  ready : Ready store job exchanges
  agreed : ∃ before agreement after, exchanges = before ++ shown job.lines ++ agreement ++ after ∧ Agreed quiet agreement

/-! ## Behind the job -/

def Action.uploaded : Action → Option (Text × Text × Text)
  | .upload destination key path => some (destination, key, path)
  | _ => none

def uploads (exchanges : List Exchange) : List (Text × Text × Text) := exchanges.filterMap (·.1.uploaded)

/-- What a run leaves in a bucket. -/
def archive (bucketConfig : BucketConfig) (run : RunId) (reportPath transcriptPath : Text) (extract : Option Text) :
    List (Text × Text × Text) :=
  let destination := (RemoteTarget.bucketRoot bucketConfig.aliasName).address
  [(destination, run.keyPrefix ++ "/report.txt".toList, reportPath),
    (destination, run.keyPrefix ++ "/transcript.txt".toList, transcriptPath)] ++
  extract.toList.map fun path => (destination, run.keyPrefix ++ "/pigeon.jsonl".toList, path)

def Action.runs : Action → Bool
  | .run _ => true
  | _ => false

theorem runs_of_still {action : Action} (h : action.acts = false) : action.runs = false := by
  cases action <;> first | rfl | cases h

theorem uploaded_of_still {action : Action} (h : action.acts = false) : action.uploaded = none := by
  cases action <;> first | rfl | cases h

/-- What comes behind a job. -/
structure Concluding (bucketConfig : BucketConfig) (transcriptPath : Text) (exchanges : List Exchange) : Prop where
  once : ∀ exchange ∈ exchanges, exchange.1.runs = false
  unasked : ∀ exchange ∈ exchanges, exchange.1.prompts = false
  archived : ∃ run reportPath extract, uploads exchanges = archive bucketConfig run reportPath transcriptPath extract

theorem Concluding.after {bucketConfig : BucketConfig} {transcriptPath : Text} {exchanges later : List Exchange}
    (hStill : ∀ exchange ∈ exchanges, exchange.1.acts = false) (hUnasked : ∀ exchange ∈ exchanges, exchange.1.prompts = false)
    (h : Concluding bucketConfig transcriptPath later) : Concluding bucketConfig transcriptPath (exchanges ++ later) where
  once := List.forall_mem_append.mpr ⟨fun exchange hMem => runs_of_still (hStill exchange hMem), h.once⟩
  unasked := List.forall_mem_append.mpr ⟨hUnasked, h.unasked⟩
  archived := by
    obtain ⟨run, reportPath, extract, hUploads⟩ := h.archived
    refine ⟨run, reportPath, extract, ?_⟩
    rw [uploads, List.filterMap_append, List.filterMap_eq_nil_iff.mpr fun exchange hMem => uploaded_of_still (hStill exchange hMem)]
    exact hUploads

section Conclude

variable {bucketConfig : BucketConfig} {transcriptPath : Text}

theorem conclude_ensures (run : RunId) (outcome : Nat × Text) :
    (conclude bucketConfig run transcriptPath outcome).Ensures fun exchanges result =>
      Concluding bucketConfig transcriptPath exchanges ∧ result = .ok outcome.1 := by
  rintro ⟨⟩ reported transcribed extract
  rcases extract with err | _ | extractPath
  · refine ⟨⟨?_, ?_, run, outcome.2, none, rfl⟩, rfl⟩
    · simp [Action.runs]
    · simp [Action.prompts]
  · refine ⟨⟨?_, ?_, run, outcome.2, none, rfl⟩, rfl⟩
    · simp [Action.runs]
    · simp [Action.prompts]
  · rintro kept ⟨⟩
    refine ⟨⟨?_, ?_, run, outcome.2, some extractPath, rfl⟩, rfl⟩
    · simp [Action.runs]
    · simp [Action.prompts]

/-- A part that comes to its end with this exit code, and only reports. -/
def Settles (code : Nat) (f : Wizard (Nat × Text)) : Prop :=
  f.Ensures fun exchanges result =>
    (∀ exchange ∈ exchanges, exchange.1.acts = false) ∧ (∀ exchange ∈ exchanges, exchange.1.prompts = false) ∧
      ∃ reportPath, result = .ok (code, reportPath)

theorem concluded_settles (message : Text) (failed : Bool) (reportPath : Text) :
    Settles (if failed then failureExitCode else 0) (concluded message failed reportPath) := by
  rintro ⟨⟩ ⟨⟩
  exact ⟨by simp [Action.acts], by simp [Action.prompts], reportPath, rfl⟩

theorem broken_settles (err reportPath : Text) : Settles failureExitCode (broken err reportPath) := by
  rintro ⟨⟩ ⟨⟩ ⟨⟩
  exact ⟨by simp [Action.acts], by simp [Action.prompts], reportPath, rfl⟩

theorem summarized_settles (summary : TransformSummary) (reportPath : Text) :
    Settles (if summary.failed then failureExitCode else 0) (do
      say (summaryMessage summary)
      let _ ← ask (.writeReport reportPath)
      pure (if summary.failed then failureExitCode else 0, reportPath)) := by
  rintro ⟨⟩ ⟨⟩ written
  exact ⟨by simp [Action.acts], by simp [Action.prompts], reportPath, rfl⟩

theorem spoiled_settles (err reportPath : Text) :
    Settles failureExitCode (do
      sayError err
      let _ ← ask (.writeReport reportPath)
      pure (← fail err, reportPath)) := by
  rintro ⟨⟩ ⟨⟩ written ⟨⟩
  exact ⟨by simp [Action.acts], by simp [Action.prompts], reportPath, rfl⟩

/-- What was settled is put away. -/
theorem Settles.conclude {code : Nat} {f : Wizard (Nat × Text)} (h : Settles code f) (run : RunId) :
    (f >>= conclude bucketConfig run transcriptPath).Ensures fun exchanges result =>
      Concluding bucketConfig transcriptPath exchanges ∧ result = .ok code := by
  refine .bind (Failing.Ensures.mono h ?_)
  rintro exchanges result ⟨hStill, hUnasked, reportPath, rfl⟩
  refine (conclude_ensures run (code, reportPath)).mono fun later final hFinal => ?_
  exact ⟨.after hStill hUnasked hFinal.1, hFinal.2⟩

end Conclude

/-! ## From the first step to the last -/

/-- A job was run, and only this one. -/
inductive Ran (quiet : Bool) : List Exchange → Nat → Prop
  | intro {setup tail : List Exchange} {store : Store} {bucketConfig : BucketConfig} {transcriptPath : Text} {job : Job}
      {reply : Except Text job.Summary} (tame : Tame quiet setup) (authorized : Authorized quiet store job setup)
      (known : bucketConfig ∈ store.bucketConfigs) (created : ⟨.createTranscript transcriptPath, .ok ()⟩ ∈ setup)
      (concluding : Concluding bucketConfig transcriptPath tail) :
      Ran quiet (setup ++ ⟨.run job, reply⟩ :: tail) (job.exitCode reply)

inductive Ends (quiet : Bool) : List Exchange → Except Stop Nat → Prop
  | stopped {exchanges : List Exchange} {stop : Stop} (tame : Tame quiet exchanges)
      (declined : stop = .cancelled → ⟨proceed, .ok false⟩ ∈ exchanges) : Ends quiet exchanges (.error stop)
  | ran {exchanges : List Exchange} {exitCode : Nat} (h : Ran quiet exchanges exitCode) : Ends quiet exchanges (.ok exitCode)

/-- What a wizard comes to after what was exchanged already. -/
def Leads (quiet : Bool) (known : List Exchange) (f : Wizard Nat) : Prop :=
  Tame quiet known → f.Ensures fun later => Ends quiet (known ++ later)

section Leads

variable {quiet : Bool} {known : List Exchange} {store : Store}

theorem Leads.bind {α : Type} {f : Wizard α} {g : α → Wizard Nat} {good : α → List Exchange → Prop} (hFirst : f.Ensures (Setup quiet good))
    (hLater : ∀ value earlier, good value earlier → Leads quiet (known ++ earlier) (g value)) : Leads quiet known (f >>= g) := by
  intro hKnown
  refine .bind (hFirst.mono fun earlier result hEarlier => ?_)
  have hTame : Tame quiet (known ++ earlier) := hKnown.append hEarlier.tame
  cases result with
  | error stop => exact .stopped hTame fun hStop => List.mem_append_right _ (hEarlier.declined (congrArg _ hStop))
  | ok value =>
    refine (hLater value earlier (hEarlier.good value rfl) hTame).mono fun later final hFinal => ?_
    rwa [List.append_assoc] at hFinal

/-- A step that one of two ways may take. -/
theorem Leads.ite_bind {α : Type} {p : Prop} [Decidable p] {f other : Wizard α} {g : α → Wizard Nat} {good : α → List Exchange → Prop}
    (hFirst : f.Ensures (Setup quiet good)) (hOther : other.Ensures (Setup quiet good))
    (hLater : ∀ value earlier, good value earlier → Leads quiet (known ++ earlier) (g value)) :
    Leads quiet known (if p then f >>= g else other >>= g) := by
  split
  · exact .bind hFirst hLater
  · exact .bind hOther hLater

/-- What is left to do once the lines of a job were shown. -/
theorem leads_job {before : List Exchange} {bucketConfig : BucketConfig} {jobOf : RunId → Job}
    {g : (run : RunId) → Text → Except Text (jobOf run).Summary → Wizard Nat} (localOutput jobName : Text)
    (lines : List Text) (hShown : known = before ++ shown lines) (hReady : ∀ run, Ready store (jobOf run) before) (hLines : ∀ run, (jobOf run).lines = lines)
    (hKnown : bucketConfig ∈ store.bucketConfigs)
    (hBehind : ∀ run transcriptPath reply, (g run transcriptPath reply).Ensures fun exchanges result =>
      Concluding bucketConfig transcriptPath exchanges ∧ result = .ok ((jobOf run).exitCode reply)) :
    Leads quiet known (confirm quiet >>= fun _ => createLocalOutput localOutput >>= fun _ => generateRun jobName >>= fun run =>
      newTranscript localOutput >>= fun transcriptPath => ask (.run (jobOf run)) >>= g run transcriptPath) := by
  refine Leads.bind confirm_setup fun _ agreement hAgreed => ?_
  refine Leads.bind (createLocalOutput_setup localOutput) fun _ creating _ => ?_
  refine Leads.bind (generateRun_setup jobName) fun run generating _ => ?_
  refine Leads.bind (newTranscript_setup localOutput) fun transcriptPath writing hCreated => ?_
  intro hTame
  rw [ensures_ask_bind]
  intro reply
  refine (hBehind run transcriptPath reply).mono ?_
  rintro later result ⟨hConcluding, rfl⟩
  refine .ran (.intro hTame ⟨(hReady run).mono ?_, before, agreement, creating ++ (generating ++ writing), ?_, hAgreed⟩ hKnown
    (List.mem_append_right _ hCreated) hConcluding)
  · rw [hShown, List.append_assoc, List.append_assoc, List.append_assoc, List.append_assoc]
    exact List.subset_append_left _ _
  · rw [hShown, hLines, List.append_assoc, List.append_assoc (before ++ shown lines ++ agreement)]

end Leads

/-! ## Each dispatch -/

theorem dispatchCopy_leads (machine : Machine) (flags : CopyFlags) : Leads flags.nonInteractive [] (dispatchCopy machine flags) := by
  rw [dispatchCopy]
  refine Leads.bind loadKeyring_setup fun store loading hLoaded => ?_
  refine Leads.bind prepareRclone_setup fun _ preparing hPrepared => ?_
  refine Leads.bind (bucketInput_gives _ _ _).resolve fun source askingSource hSource => ?_
  refine Leads.bind (bucketInput_gives _ _ _).resolve fun destination askingDestination hDestination => ?_
  refine Leads.bind (localOutputInput_gives _ _).resolve fun localOutput askingOutput _ => ?_
  refine Leads.bind (numberInput_gives _ _ _ (by decide)).resolve fun transfers askingTransfers hTransfers => ?_
  refine Leads.bind (numberInput_gives _ _ _ (by decide)).resolve fun checkers askingCheckers hCheckers => ?_
  refine Leads.bind (tpslimitInput_gives _).resolve fun tpslimit askingLimit _ => ?_
  refine Leads.bind (resolveDebugLogBucket_setup _) fun debugLogBucket askingBucket hBucket => ?_
  refine Leads.bind (println_setup _) fun _ firstLine hFirst => ?_
  refine Leads.bind (println_setup _) fun _ secondLine hSecond => ?_
  obtain rfl := hFirst
  obtain rfl := hSecond
  refine leads_job localOutput flags.jobName ["Source:      ".toList ++ source.address, "Destination: ".toList ++ destination.address]
    (List.append_assoc _ _ _) (fun run => ?_) (fun run => rfl) hBucket fun run transcriptPath reply => ?_
  · exact {
      loaded := hLoaded.imp fun path hPath => by simp only [List.mem_append, hPath, true_or, or_true]
      prepared := hPrepared.mono fun exchange hMem => by simp only [List.mem_append, hMem, true_or, or_true]
      routed := List.forall_mem_cons.mpr ⟨⟨source, hSource, rfl⟩, List.forall_mem_singleton.mpr ⟨destination, hDestination, rfl⟩⟩
      sized := List.forall_mem_cons.mpr ⟨hTransfers, List.forall_mem_singleton.mpr hCheckers⟩
      equipped := List.forall_mem_nil _ }
  · cases reply with
    | ok summary => exact (concluded_settles _ _ _).conclude run
    | error err => exact (broken_settles _ _).conclude run

theorem dispatchDelete_leads (machine : Machine) (flags : DeleteFlags) :
    Leads flags.nonInteractive [] (dispatchDelete machine flags) := by
  rw [dispatchDelete]
  refine Leads.bind loadKeyring_setup fun store loading hLoaded => ?_
  refine Leads.bind prepareRclone_setup fun _ preparing hPrepared => ?_
  refine Leads.bind (bucketInput_gives _ _ _).resolve fun source askingSource hSource => ?_
  refine Leads.bind (localOutputInput_gives _ _).resolve fun localOutput askingOutput _ => ?_
  refine Leads.bind (numberInput_gives _ _ _ (by decide)).resolve fun checkers askingCheckers hCheckers => ?_
  refine Leads.bind (resolveDebugLogBucket_setup _) fun debugLogBucket askingBucket hBucket => ?_
  refine Leads.bind (println_setup _) fun _ firstLine hFirst => ?_
  refine Leads.bind (println_setup _) fun _ secondLine hSecond => ?_
  obtain rfl := hFirst
  obtain rfl := hSecond
  refine leads_job localOutput flags.jobName ["Source: ".toList ++ source.address, deleteWarning]
    (List.append_assoc _ _ _) (fun run => ?_) (fun run => rfl) hBucket fun run transcriptPath reply => ?_
  · exact {
      loaded := hLoaded.imp fun path hPath => by simp only [List.mem_append, hPath, true_or, or_true]
      prepared := hPrepared.mono fun exchange hMem => by simp only [List.mem_append, hMem, true_or, or_true]
      routed := List.forall_mem_singleton.mpr ⟨source, hSource, rfl⟩
      sized := List.forall_mem_singleton.mpr hCheckers
      equipped := List.forall_mem_nil _ }
  · cases reply with
    | ok summary => exact (concluded_settles _ _ _).conclude run
    | error err => exact (broken_settles _ _).conclude run

theorem dispatchTransform_leads (machine : Machine) (flags : TransformFlags) :
    Leads flags.nonInteractive [] (dispatchTransform machine flags) := by
  rw [dispatchTransform]
  refine Leads.bind (optionInput_gives _ _ _ _ _ _ _).resolve fun kind askingKind _ => ?_
  refine Leads.bind (requiredConverterAvailable_setup kind) fun _ equipping hEquipped => ?_
  refine Leads.bind loadKeyring_setup fun store loading hLoaded => ?_
  refine Leads.bind prepareRclone_setup fun _ preparing hPrepared => ?_
  refine Leads.ite_bind (optionInput_gives _ _ _ _ _ _ _).resolve (Setup.done .nil trivial) fun videoQuality askingVideo _ => ?_
  refine Leads.ite_bind (optionInput_gives _ _ _ _ _ _ _).resolve (Setup.done .nil trivial) fun audioQuality askingAudio _ => ?_
  refine Leads.bind (bucketInput_gives _ _ _).resolve fun source askingSource hSource => ?_
  refine Leads.bind (bucketInput_gives _ _ _).resolve fun destination askingDestination hDestination => ?_
  refine Leads.bind (localOutputInput_gives _ _).resolve fun localOutput askingOutput _ => ?_
  refine Leads.bind (cpuConcurrencyInput_gives _).resolve fun concurrency askingConcurrency hConcurrency => ?_
  refine Leads.bind (numberInput_gives _ _ _ (by decide)).resolve fun downloadTransfers askingDownloads hDownloads => ?_
  refine Leads.bind (numberInput_gives _ _ _ (by decide)).resolve fun downloadCheckers askingCheckers hCheckers => ?_
  refine Leads.bind (numberInput_gives _ _ _ (by decide)).resolve fun uploadTransfers askingUploads hUploads => ?_
  have hDefault : 0 < concurrency * 4 := Nat.mul_pos hConcurrency (by decide)
  refine Leads.bind (numberInput_gives _ _ _ hDefault).resolve fun maxPendingDownloads askingPending hPending => ?_
  refine Leads.bind (tpslimitInput_gives _).resolve fun tpslimit askingLimit _ => ?_
  refine Leads.bind (resolveDebugLogBucket_setup _) fun debugLogBucket askingBucket hBucket => ?_
  refine Leads.bind (printLines_setup _) fun _ printed hPrinted => ?_
  refine leads_job localOutput flags.jobName (transformLines kind videoQuality audioQuality source.address destination.address)
    (congrArg _ hPrinted) (fun run => ?_) (fun run => rfl) hBucket fun run transcriptPath reply => ?_
  · exact {
      loaded := hLoaded.imp fun path hPath => by simp only [List.mem_append, hPath, true_or, or_true]
      prepared := hPrepared.mono fun exchange hMem => by simp only [List.mem_append, hMem, true_or, or_true]
      routed := List.forall_mem_cons.mpr ⟨⟨source, hSource, rfl⟩, List.forall_mem_singleton.mpr ⟨destination, hDestination, rfl⟩⟩
      sized := by simp [Job.sizes, hDownloads, hCheckers, hPending, hConcurrency, hUploads]
      equipped := fun tool hTool =>
        (hEquipped tool hTool).mono fun exchange hMem => by simp only [List.mem_append, hMem, true_or, or_true] }
  · cases reply with
    | ok summary => exact (summarized_settles _ _).conclude run
    | error err => exact (spoiled_settles _ _).conclude run

/-! ## Every run of a command -/

theorem wizard_leads (machine : Machine) (command : Command) : Leads command.nonInteractive [] (command.wizard machine) := by
  cases command with
  | copy flags => exact dispatchCopy_leads machine flags
  | delete flags => exact dispatchDelete_leads machine flags
  | transform flags => exact dispatchTransform_leads machine flags

/-- What a command may come to, by what was exchanged and the exit code. -/
inductive Dispatched (quiet : Bool) : List Exchange → Nat → Prop
  | failed {exchanges : List Exchange} (tame : Tame quiet exchanges) (err : Text) :
      Dispatched quiet (exchanges ++ [⟨.eprintln ("Error: ".toList ++ err), ()⟩]) failureExitCode
  | declined {exchanges : List Exchange} (tame : Tame quiet exchanges) (declined : ⟨proceed, .ok false⟩ ∈ exchanges) :
      Dispatched quiet exchanges 0
  | ran {exchanges : List Exchange} {exitCode : Nat} (h : Ran quiet exchanges exitCode) : Dispatched quiet exchanges exitCode

theorem dispatch_ensures (machine : Machine) (command : Command) :
    (dispatch machine command).Ensures (Dispatched command.nonInteractive) := by
  refine Talk.Ensures.bind (Talk.Ensures.mono (wizard_leads machine command .nil) fun exchanges result hEnds => ?_)
  rw [List.nil_append] at hEnds
  cases hEnds with
  | @stopped stop tame declined =>
    cases stop with
    | failed err =>
      rintro ⟨⟩
      exact .failed tame err
    | cancelled =>
      show Dispatched _ (exchanges ++ []) 0
      rw [List.append_nil]
      exact .declined tame (declined rfl)
  | @ran exitCode h =>
    show Dispatched _ (exchanges ++ []) exitCode
    rw [List.append_nil]
    exact .ran h

end Pigeon.Dispatch
