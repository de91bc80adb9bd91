import Pigeon.Core.Retry
import Pigeon.Rclone.Execute
import Pigeon.Transform.Process

/-! # Pushing one object

An object is pushed by `copyto`, which is tried again after failures; when the endpoint cannot be reached the push
waits at the gate and starts over until the gate gives up. Each call of rclone is counted once, and the object
is counted as uploaded once if it was and never otherwise.
-/
namespace Pigeon.Rclone

open Library
open Gate (GateDecision)

set_option autoImplicit false

variable {Output : Type}

structure Ran (Output : Type) where
  increments : List Increment
  calls : Nat
  sleeps : List Nat
  result : Except Text Output

/-- What `run` comes to where the calls of rclone find the hosts, in order. -/
def RcloneCommand.run (parse : Text → Option RcloneLogLine) (command : RcloneCommand Output) (hosts : Nat → Host) : Ran Output :=
  match command.retry with
  | some (attempts, backoff) =>
    let retried := Core.retryWithBackoff attempts backoff fun call => (execute parse command (hosts call)).result
    { increments := (List.range retried.calls).flatMap fun call => (execute parse command (hosts call)).increments
      calls := retried.calls, sleeps := retried.sleeps, result := retried.result }
  | none =>
    let executed := execute parse command (hosts 0)
    { increments := executed.increments, calls := 1, sleeps := [], result := executed.result }

def pushOne (job localPath destination logPath : Text) (bytes : Nat) : CopyTo where
  source := localPath
  destination := destination
  logPath := logPath
  job := job
  step := "push".toList
  emitUploadMetrics := true
  bytes := bytes

/-- What a push and then, if it is asked, the gate answer. -/
structure PushRound where
  hosts : Nat → Host
  decision : GateDecision

structure PushFailure where
  error : Text
  gated : Bool
deriving DecidableEq, Repr

structure Pushed where
  increments : List Increment
  calls : Nat
  sleeps : List Nat
  result : Except PushFailure Unit

/-- The loop, or none where it goes on after these rounds. -/
def pushWithGate (parse : Text → Option RcloneLogLine) (copyTo : CopyTo) : List PushRound → Option Pushed
  | [] => none
  | round :: rounds =>
    let ran := copyTo.command.run parse round.hosts
    match ran.result with
    | .ok () => some ⟨ran.increments, ran.calls, ran.sleeps, .ok ()⟩
    | .error error =>
      if !Transform.isEndpointUnreachableError error then some ⟨ran.increments, ran.calls, ran.sleeps, .error ⟨error, false⟩⟩
      else
        match round.decision with
        | .retry =>
          (pushWithGate parse copyTo rounds).map fun later =>
            { later with
              increments := ran.increments ++ later.increments
              calls := ran.calls + later.calls
              sleeps := ran.sleeps ++ later.sleeps }
        | .giveUp => some ⟨ran.increments, ran.calls, ran.sleeps, .error ⟨error, true⟩⟩

/-! ## Counting -/

/-- The counters of some calls of `copyto`, so many of which were made and so many of which uploaded the object. -/
structure Counted (copyTo : CopyTo) (increments : List Increment) (calls uploaded : Nat) : Prop where
  transferred : (Series.phase copyTo.job copyTo.step "transferred".toList).total increments = uploaded
  outcomes : (Series.uploadOutcomes copyTo.job "uploaded".toList).total increments = uploaded
  bytes : (Series.uploadBytes copyTo.job).total increments = copyTo.bytes * uploaded
  failed : (Series.uploadOutcomes copyTo.job "failed".toList).total increments =
    (Series.phase copyTo.job copyTo.step "failed".toList).total increments
  bounded : uploaded + (Series.phase copyTo.job copyTo.step "failed".toList).total increments ≤ calls

namespace Counted

variable {parse : Text → Option RcloneLogLine} {copyTo : CopyTo}

theorem append {first second : List Increment} {calls later uploaded more : Nat} (h : Counted copyTo first calls uploaded)
    (hLater : Counted copyTo second later more) : Counted copyTo (first ++ second) (calls + later) (uploaded + more) := by
  refine ⟨?_, ?_, ?_, ?_, ?_⟩
  · rw [Series.total_append, h.transferred, hLater.transferred]
  · rw [Series.total_append, h.outcomes, hLater.outcomes]
  · rw [Series.total_append, h.bytes, hLater.bytes, Nat.mul_add]
  · rw [Series.total_append, Series.total_append, h.failed, hLater.failed]
  · have hFirst := h.bounded
    have hSecond := hLater.bounded
    rw [Series.total_append]
    omega

theorem nothing (copyTo : CopyTo) (calls : Nat) : Counted copyTo [] calls 0 :=
  ⟨rfl, rfl, (Nat.mul_zero _).symm, rfl, Nat.zero_le _⟩

/-- One call counts what its result says. -/
theorem executeOneShot (hEmits : copyTo.emitUploadMetrics = true) (spawned : Except Text Child) :
    (∃ err, (Rclone.executeOneShot copyTo.command spawned).result = .error err ∧
        Counted copyTo (Rclone.executeOneShot copyTo.command spawned).increments 1 0) ∨
      ((Rclone.executeOneShot copyTo.command spawned).result = .ok () ∧
        Counted copyTo (Rclone.executeOneShot copyTo.command spawned).increments 1 1) := by
  rw [Rclone.executeOneShot]
  split
  · exact .inl ⟨_, rfl, nothing copyTo 1⟩
  · rename_i child status hRan
    dsimp only [CopyTo.command, CopyTo.finish]
    rw [hEmits]
    cases status.success with
    | false =>
      refine .inl ⟨_, rfl, ?_, ?_, ?_, ?_, ?_⟩ <;>
        simp [Series.total_cons, Series.total_nil]
    | true =>
      refine .inr ⟨rfl, ?_, ?_, ?_, ?_, ?_⟩ <;>
        simp [Series.total_cons, Series.total_nil]

theorem execute (parse : Text → Option RcloneLogLine) (hEmits : copyTo.emitUploadMetrics = true) (host : Host) :
    (∃ err, (Rclone.execute parse copyTo.command host).result = .error err ∧
        Counted copyTo (Rclone.execute parse copyTo.command host).increments 1 0) ∨
      ((Rclone.execute parse copyTo.command host).result = .ok () ∧
        Counted copyTo (Rclone.execute parse copyTo.command host).increments 1 1) := by
  rw [Rclone.execute]
  split
  · exact .inl ⟨_, rfl, nothing copyTo 1⟩
  · split
    · exact .inl ⟨_, rfl, nothing copyTo 1⟩
    · exact executeOneShot hEmits _

theorem range {increments : Nat → List Increment} {calls : Nat} (h : ∀ call < calls, Counted copyTo (increments call) 1 0) :
    Counted copyTo ((List.range calls).flatMap increments) calls 0 := by
  induction calls with
  | zero => exact nothing copyTo 0
  | succ calls ih =>
    rw [List.range_succ, List.flatMap_append, List.flatMap_singleton]
    exact (ih fun call hCall => h call (Nat.lt_succ_of_lt hCall)).append (h calls (Nat.lt_succ_self calls))

end Counted

variable {parse : Text → Option RcloneLogLine} {copyTo : CopyTo}

/-- The pauses between the four calls of one push. -/
def pushPauses : List Nat := [30, 60, 90]

theorem pauses_eq_take {earlier : Nat} (h : earlier < 4) : (List.range' 1 earlier).map (30 * ·) = pushPauses.take earlier := by
  obtain rfl | rfl | rfl | rfl : earlier = 0 ∨ earlier = 1 ∨ earlier = 2 ∨ earlier = 3 := by omega
  all_goals rfl

/-- A push calls rclone until it succeeds, four times at most. -/
theorem run_copyTo (parse : Text → Option RcloneLogLine) (hEmits : copyTo.emitUploadMetrics = true) (hosts : Nat → Host) :
    let ran := copyTo.command.run parse hosts
    ∃ earlier < 4, ran.calls = earlier + 1 ∧ ran.sleeps = pushPauses.take earlier ∧
      ((ran.result = .ok () ∧ Counted copyTo ran.increments ran.calls 1) ∨
        ∃ err, ran.result = .error err ∧ earlier = 3 ∧ Counted copyTo ran.increments ran.calls 0) := by
  intro ran
  obtain ⟨earlier, hEarlier, hFailed, hRetried, hLast⟩ :=
    Core.retryWithBackoff_spec 4 30 fun call => (execute parse copyTo.command (hosts call)).result
  have hRan : ran =
      { increments := (List.range (earlier + 1)).flatMap fun call => (execute parse copyTo.command (hosts call)).increments
        calls := earlier + 1, sleeps := (List.range' 1 earlier).map (30 * ·)
        result := (execute parse copyTo.command (hosts earlier)).result } := by
    change { increments := _, calls := _, sleeps := _, result := _ : Ran Unit } = _
    rw [hRetried]
  have hBefore : Counted copyTo ((List.range earlier).flatMap fun call => (execute parse copyTo.command (hosts call)).increments)
      earlier 0 := by
    refine Counted.range fun call hCall => ?_
    obtain ⟨err, hErr⟩ := hFailed call hCall
    obtain ⟨-, -, hCounted⟩ | ⟨hOk, -⟩ := Counted.execute parse hEmits (hosts call)
    · exact hCounted
    · rw [hOk] at hErr
      cases hErr
  rw [hRan]
  refine ⟨earlier, hEarlier, rfl, pauses_eq_take hEarlier, ?_⟩
  dsimp only
  rw [List.range_succ, List.flatMap_append, List.flatMap_singleton]
  obtain ⟨err, hErr, hCounted⟩ | ⟨hOk, hCounted⟩ := Counted.execute parse hEmits (hosts earlier)
  · exact .inr ⟨err, hErr, Nat.succ_injective (hLast ⟨err, hErr⟩), hBefore.append hCounted⟩
  · exact .inl ⟨hOk, Nat.zero_add 1 ▸ hBefore.append hCounted⟩

/-- What the push of an object comes to after so many rounds that the gate let start over. -/
structure Accounted (copyTo : CopyTo) (rounds : List PushRound) (pushed : Pushed) (restarts last : Nat) : Prop where
  restarted : ∀ round ∈ rounds.take restarts, round.decision = .retry
  called : last < 4
  calls : pushed.calls = 4 * restarts + (last + 1)
  sleeps : pushed.sleeps = (List.replicate restarts pushPauses).flatten ++ pushPauses.take last
  verdict : (pushed.result = .ok () ∧ Counted copyTo pushed.increments pushed.calls 1) ∨
    ∃ failure, pushed.result = .error failure ∧ last = 3 ∧ Counted copyTo pushed.increments pushed.calls 0 ∧
      failure.gated = Transform.isEndpointUnreachableError failure.error ∧
      (failure.gated = true → ∃ round, rounds[restarts]? = some round ∧ round.decision = .giveUp)

theorem accounted_pushWithGate (hEmits : copyTo.emitUploadMetrics = true) {rounds : List PushRound} {pushed : Pushed}
    (h : pushWithGate parse copyTo rounds = some pushed) : ∃ restarts last, Accounted copyTo rounds pushed restarts last := by
  induction rounds generalizing pushed with
  | nil => cases h
  | cons round rounds ih =>
    obtain ⟨last, hCalled, hCalls, hSleeps, hVerdict⟩ := run_copyTo parse hEmits round.hosts
    rw [pushWithGate] at h
    generalize copyTo.command.run parse round.hosts = ran at hCalls hSleeps hVerdict h
    obtain ⟨hOk, hCounted⟩ | ⟨err, hErr, rfl, hCounted⟩ := hVerdict
    · rw [hOk] at h
      cases h
      exact ⟨0, last, fun _ hMem => absurd hMem List.not_mem_nil, hCalled, hCalls.trans (Nat.zero_add _).symm, hSleeps,
        .inl ⟨rfl, hCounted⟩⟩
    · rw [hErr] at h
      dsimp only at h
      split at h
      · rename_i hOther
        cases h
        refine ⟨0, 3, fun _ hMem => absurd hMem List.not_mem_nil, hCalled, hCalls.trans (Nat.zero_add _).symm, hSleeps,
          .inr ⟨_, rfl, rfl, hCounted, ?_, nofun⟩⟩
        rw [Bool.not_eq_true'] at hOther
        exact hOther.symm
      · rename_i hUnreachable
        rw [Bool.not_eq_true', Bool.not_eq_false] at hUnreachable
        cases hDecision : round.decision with
        | giveUp =>
          rw [hDecision] at h
          cases h
          exact ⟨0, 3, fun _ hMem => absurd hMem List.not_mem_nil, hCalled, hCalls.trans (Nat.zero_add _).symm, hSleeps,
            .inr ⟨_, rfl, rfl, hCounted, hUnreachable.symm, fun _ => ⟨round, rfl, hDecision⟩⟩⟩
        | retry =>
          rw [hDecision] at h
          obtain ⟨later, hLater, rfl⟩ := Option.map_eq_some_iff.mp h
          obtain ⟨restarts, last, hAccounted⟩ := ih hLater
          refine ⟨restarts + 1, last, fun other hMem => ?_, hAccounted.called, ?_, ?_, ?_⟩
          · rw [List.take_succ_cons] at hMem
            obtain rfl | hMem := List.mem_cons.mp hMem
            · exact hDecision
            · exact hAccounted.restarted other hMem
          · dsimp only
            rw [hCalls, hAccounted.calls]
            omega
          · dsimp only
            rw [hSleeps, hAccounted.sleeps, List.replicate_succ, List.flatten_cons, List.append_assoc]
            rfl
          · obtain ⟨hOk, hMore⟩ | ⟨failure, hFailure, hLast, hMore, hGated, hGaveUp⟩ := hAccounted.verdict
            · exact .inl ⟨hOk, Nat.zero_add 1 ▸ hCounted.append hMore⟩
            · exact .inr ⟨failure, hFailure, hLast, hCounted.append hMore, hGated, hGaveUp⟩

/-- However rclone and the gate answer: an object is counted as uploaded, with its bytes, once if its push succeeds and
never if it fails, the failures are counted alike in both counters, a push that starts over or fails has made all its four calls
with their pauses, and it fails for the gate exactly when the endpoint could not be reached and the gate gave up. -/
theorem pushWithGate_accounts (parse : Text → Option RcloneLogLine) (job localPath destination logPath : Text) (bytes : Nat)
    {rounds : List PushRound} {pushed : Pushed}
    (h : pushWithGate parse (pushOne job localPath destination logPath bytes) rounds = some pushed) :
    ∃ restarts last, Accounted (pushOne job localPath destination logPath bytes) rounds pushed restarts last :=
  accounted_pushWithGate rfl h

def mailHost (child : Child) : Host where
  rcloneConfigPath := .ok "/home/rclone.conf".toList
  rclone _ := .ok child

/-- The endpoint is unreachable until the gate has let the push start over, and once more after that. -/
def mailRounds : List PushRound :=
  [⟨fun _ => mailHost { status := .ok (some 1), stderr := "dial tcp: no such host".toList }, .retry⟩,
    ⟨fun call => mailHost { status := .ok (some (if call = 0 then 1 else 0)), stderr := "dial tcp: no such host".toList }, .giveUp⟩]

theorem pushWithGate_accounts_mail_rounds :
    ∃ pushed, pushWithGate (fun _ => none) (pushOne "email-import".toList "/s/1.eml".toList "mail:1.eml".toList "/l".toList 7) mailRounds =
        some pushed ∧
      pushed.calls = 6 ∧ pushed.sleeps = [30, 60, 90, 30] ∧ (∃ restarts last,
        Accounted (pushOne "email-import".toList "/s/1.eml".toList "mail:1.eml".toList "/l".toList 7) mailRounds pushed restarts last) := by
  have h : (pushWithGate (fun _ => none) (pushOne "email-import".toList "/s/1.eml".toList "mail:1.eml".toList "/l".toList 7) mailRounds).map
      (fun pushed => (pushed.calls, pushed.sleeps)) = some (6, [30, 60, 90, 30]) := by
    decide +kernel
  obtain ⟨pushed, hPushed, hBoth⟩ := Option.map_eq_some_iff.mp h
  obtain ⟨hCalls, hSleeps⟩ := Prod.mk.inj hBoth
  exact ⟨pushed, hPushed, hCalls, hSleeps, pushWithGate_accounts _ _ _ _ _ _ hPushed⟩

end Pigeon.Rclone

namespace Pigeon.EmailImport

open Library

set_option autoImplicit false

def logNameFor (key : Text) : Text := key.map fun ch => if ch = '/' ∨ ch = '\\' ∨ ch = ':' then '-' else ch

/-- The size of a file that cannot be read counts as zero. -/
def pushOne (localPath destinationAddress key pushLogDir : Text) (size : Option Nat) : Rclone.CopyTo :=
  Rclone.pushOne "email-import".toList localPath (destinationAddress ++ key)
    (pushLogDir ++ "/".toList ++ logNameFor key ++ ".jsonl".toList) (size.getD 0)

end Pigeon.EmailImport

namespace Pigeon.Transform

open Library

set_option autoImplicit false

def pushOne (localPath destination destinationFilename pushLogDir : Text) (size : Option Nat) : Rclone.CopyTo :=
  Rclone.pushOne "transform".toList localPath (trimEndMatches (· == '/') destination ++ "/".toList ++ destinationFilename)
    (pushLogDir ++ "/".toList ++ destinationFilename ++ ".jsonl".toList) (size.getD 0)

end Pigeon.Transform
