import Pigeon.Dispatch.Jobs
import Pigeon.Library.Fallible
import Pigeon.Rclone.Address
import Pigeon.Rclone.Routing
import Pigeon.Transform.Convert.Checked

/-! # What comes before a job

Nothing is run while a wizard finds out what to do, and nothing is asked but at a terminal. What each of its steps has found out
holds whatever the operator, the disk and the tools answer.
-/
namespace Pigeon.Dispatch

open Library Keyring Rclone Transform Wizard
open Failing hiding ask orFail

set_option autoImplicit false

abbrev Exchange := Talk.Exchange Action.Reply

def Action.prompts : Action → Bool
  | .select _ _ _ => true
  | .interactText _ _ => true
  | .interactNumber _ _ => true
  | .interactConfirm _ _ => true
  | _ => false

def Action.acts : Action → Bool
  | .run _ => true
  | .upload _ _ _ => true
  | _ => false

/-! ## Before the job -/

/-- Nothing is run, and nothing is asked but at a terminal; where `quiet`, nothing is asked at all. -/
structure Tame (quiet : Bool) (exchanges : List Exchange) : Prop where
  still : ∀ exchange ∈ exchanges, exchange.1.acts = false
  unasked : quiet = true → ∀ exchange ∈ exchanges, exchange.1.prompts = false
  attended : Talk.SaidBehind (· = ⟨.isTerminal, true⟩) (fun action => action.prompts = true) exchanges

namespace Tame

variable {quiet : Bool} {exchanges later : List Exchange}

theorem of_unasked (hStill : ∀ exchange ∈ exchanges, exchange.1.acts = false) (hUnasked : ∀ exchange ∈ exchanges, exchange.1.prompts = false) :
    Tame quiet exchanges where
  still := hStill
  unasked _ := hUnasked
  attended before said after hSplit hSaid := by
    have hMem : said ∈ exchanges := hSplit ▸ List.mem_append_right _ List.mem_cons_self
    have hAsked : said.1.prompts = true := hSaid
    rw [hUnasked said hMem] at hAsked
    cases hAsked

theorem nil : Tame quiet [] := of_unasked (List.forall_mem_nil _) (List.forall_mem_nil _)

theorem single {action : Action} (reply : action.Reply) (hActs : action.acts = false) (hPrompts : action.prompts = false) :
    Tame quiet [⟨action, reply⟩] :=
  of_unasked (List.forall_mem_singleton.mpr hActs) (List.forall_mem_singleton.mpr hPrompts)

theorem append (h : Tame quiet exchanges) (hLater : Tame quiet later) : Tame quiet (exchanges ++ later) where
  still := List.forall_mem_append.mpr ⟨h.still, hLater.still⟩
  unasked hQuiet := List.forall_mem_append.mpr ⟨h.unasked hQuiet, hLater.unasked hQuiet⟩
  attended := h.attended.append hLater.attended

/-- Questions at a terminal. -/
theorem atTerminal (hStill : ∀ exchange ∈ exchanges, exchange.1.acts = false) : Tame false (⟨.isTerminal, true⟩ :: exchanges) where
  still := List.forall_mem_cons.mpr ⟨rfl, hStill⟩
  unasked := nofun
  attended before said after hSplit hSaid := by
    cases before with
    | nil =>
      obtain ⟨rfl, -⟩ := List.cons.inj hSplit
      cases hSaid
    | cons first before =>
      obtain ⟨rfl, -⟩ := List.cons.inj hSplit
      exact ⟨_, List.mem_cons_self, rfl⟩

end Tame

/-- A part of a wizard that comes before its job. -/
structure Setup {α : Type} (quiet : Bool) (good : α → List Exchange → Prop) (exchanges : List Exchange) (result : Except Stop α) :
    Prop where
  tame : Tame quiet exchanges
  good : ∀ value, result = .ok value → good value exchanges
  declined : result = .error .cancelled → ⟨proceed, .ok false⟩ ∈ exchanges

namespace Setup

variable {α β : Type} {quiet : Bool} {good : α → List Exchange → Prop} {exchanges : List Exchange}

theorem failed {err : Text} (hTame : Tame quiet exchanges) : Setup quiet good exchanges (.error (.failed err)) where
  tame := hTame
  good := nofun
  declined := nofun

theorem done {value : α} (hTame : Tame quiet exchanges) (hGood : good value exchanges) : Setup quiet good exchanges (.ok value) where
  tame := hTame
  good _ hValue := Except.ok.inj hValue ▸ hGood
  declined := nofun

theorem mono {better : α → List Exchange → Prop} {result : Except Stop α} (h : Setup quiet good exchanges result)
    (hBetter : ∀ value, good value exchanges → better value exchanges) : Setup quiet better exchanges result where
  tame := h.tame
  good value hValue := hBetter value (h.good value hValue)
  declined := h.declined

theorem after {later : List Exchange} {result : Except Stop α} (hTame : Tame quiet exchanges)
    (h : Setup quiet (fun value later => good value (exchanges ++ later)) later result) :
    Setup quiet good (exchanges ++ later) result where
  tame := hTame.append h.tame
  good := h.good
  declined hStop := List.mem_append_right _ (h.declined hStop)

theorem bind {middleGood : β → List Exchange → Prop} {f : Wizard β} {g : β → Wizard α} (hFirst : f.Ensures (Setup quiet middleGood))
    (hLater : ∀ middle earlier, middleGood middle earlier →
      (g middle).Ensures (Setup quiet fun value later => good value (earlier ++ later))) :
    (f >>= g).Ensures (Setup quiet good) := by
  refine .bind (hFirst.mono fun earlier result hEarlier => ?_)
  cases result with
  | error stop => exact ⟨hEarlier.tame, nofun, fun hStop => hEarlier.declined (congrArg _ (Except.error.inj hStop))⟩
  | ok middle => exact (hLater middle earlier (hEarlier.good middle rfl)).mono fun later final hFinal => after hEarlier.tame hFinal

/-- An action that neither runs nor asks. -/
theorem ask_bind {action : Action} {g : action.Reply → Wizard α} (hActs : action.acts = false) (hPrompts : action.prompts = false)
    (h : ∀ reply, (g reply).Ensures (Setup quiet fun final later => good final (⟨action, reply⟩ :: later))) :
    Failing.Ensures (ask action >>= g) (Setup quiet good) := by
  rw [ensures_ask_bind]
  intro reply
  exact (h reply).mono fun later final hFinal => after (.single reply hActs hPrompts) hFinal

theorem orFail_bind {ε : Type} {message : ε → Text} {x : Except ε β} {g : β → Wizard α}
    (h : ∀ value, x = .ok value → (g value).Ensures (Setup quiet good)) :
    Failing.Ensures (orFail message x >>= g) (Setup quiet good) := by
  rw [ensures_orFail_bind]
  exact ⟨h, fun err _ => .failed .nil⟩

theorem of_orFail {ε : Type} {message : ε → Text} {x : Except ε α} (h : ∀ value, x = .ok value → good value []) :
    Failing.Ensures (orFail message x) (Setup quiet good) := by
  rw [ensures_orFail]
  exact ⟨fun value hValue => .done .nil (h value hValue), fun err _ => .failed .nil⟩

end Setup

/-! ## Questions -/

/-- What a prompt does at its terminal. -/
structure Asked {α : Type} (good : α → List Exchange → Prop) (exchanges : List Exchange) (result : Except Stop α) : Prop where
  still : ∀ exchange ∈ exchanges, exchange.1.acts = false
  good : ∀ value, result = .ok value → good value exchanges
  kept : result ≠ .error .cancelled

namespace Asked

variable {α β : Type} {good : α → List Exchange → Prop}

theorem failed {err : Text} : Asked good [] (.error (.failed err)) where
  still := List.forall_mem_nil _
  good := nofun
  kept := nofun

theorem done {value : α} (hGood : good value []) : Asked good [] (.ok value) where
  still := List.forall_mem_nil _
  good _ hValue := Except.ok.inj hValue ▸ hGood
  kept := nofun

theorem ask_bind {action : Action} {g : action.Reply → Wizard α} (hActs : action.acts = false)
    (h : ∀ reply, (g reply).Ensures (Asked fun final later => good final (⟨action, reply⟩ :: later))) :
    Failing.Ensures (ask action >>= g) (Asked good) := by
  rw [ensures_ask_bind]
  intro reply
  refine (h reply).mono fun later final hFinal => ?_
  exact ⟨List.forall_mem_cons.mpr ⟨hActs, hFinal.still⟩, hFinal.good, hFinal.kept⟩

theorem orFail_bind {ε : Type} {message : ε → Text} {x : Except ε β} {g : β → Wizard α}
    (h : ∀ value, x = .ok value → (g value).Ensures (Asked good)) : Failing.Ensures (orFail message x >>= g) (Asked good) := by
  rw [ensures_orFail_bind]
  exact ⟨h, fun err _ => failed⟩

theorem of_orFail {ε : Type} {message : ε → Text} {x : Except ε α} (h : ∀ value, x = .ok value → good value []) :
    Failing.Ensures (orFail message x) (Asked good) := by
  rw [ensures_orFail]
  exact ⟨fun value hValue => done (h value hValue), fun err _ => failed⟩

theorem bind {f : Wizard β} {g : β → Wizard α} {middleGood : β → Prop} (hFirst : f.Ensures (Asked fun middle _ => middleGood middle))
    (hLater : ∀ middle earlier, middleGood middle → (g middle).Ensures (Asked fun value later => good value (earlier ++ later))) :
    (f >>= g).Ensures (Asked good) := by
  refine .bind (hFirst.mono fun earlier result hEarlier => ?_)
  cases result with
  | error stop => exact ⟨hEarlier.still, nofun, fun hStop => hEarlier.kept (congrArg _ (Except.error.inj hStop))⟩
  | ok middle =>
    refine (hLater middle earlier (hEarlier.good middle rfl)).mono fun later final hFinal => ?_
    exact ⟨List.forall_mem_append.mpr ⟨hEarlier.still, hFinal.still⟩, hFinal.good, hFinal.kept⟩

end Asked

namespace WizardInput

variable {α : Type} {input : WizardInput α} {quiet : Bool}

/-- Each of the three ways gives a good value. -/
structure Gives (input : WizardInput α) (good : α → List Exchange → Prop) : Prop where
  flag : ∀ value, input.flagValue = some (.ok value) → good value []
  prompt : input.prompt.Ensures (Asked fun value exchanges => good value (⟨.isTerminal, true⟩ :: exchanges))
  fallback : ∀ value exchanges, input.nonInteractiveFallback = .ok value → good value exchanges

theorem Gives.resolve {good : α → List Exchange → Prop} (h : input.Gives good) : (input.resolve quiet).Ensures (Setup quiet good) := by
  rw [WizardInput.resolve]
  split
  · rename_i result hFlag
    exact Setup.of_orFail fun value hValue => h.flag value (hFlag.trans (congrArg some hValue))
  · cases quiet with
    | true => exact Setup.of_orFail fun value hValue => h.fallback value [] hValue
    | false =>
      rw [if_neg Bool.false_ne_true, ensures_ask_bind]
      rintro (_ | _)
      · rw [if_neg Bool.false_ne_true]
        have hTame : Tame false [⟨.isTerminal, (false : Action.isTerminal.Reply)⟩] := .single _ rfl rfl
        have hFallback : (orFail id input.nonInteractiveFallback).Ensures
            (Setup false fun value later => good value ([⟨.isTerminal, false⟩] ++ later)) :=
          Setup.of_orFail fun value hValue => h.fallback value _ hValue
        exact hFallback.mono fun later final hFinal => .after hTame hFinal
      · rw [if_pos rfl]
        refine h.prompt.mono fun later final hFinal => ?_
        exact ⟨.atTerminal hFinal.still, hFinal.good, fun hStop => absurd hStop hFinal.kept⟩

/-- The same where it is only the value that matters. -/
theorem gives_of_values {good : α → Prop} (hFlag : ∀ value, input.flagValue = some (.ok value) → good value)
    (hPrompt : input.prompt.Ensures (Asked fun value _ => good value))
    (hFallback : ∀ value, input.nonInteractiveFallback = .ok value → good value) : input.Gives fun value _ => good value :=
  ⟨hFlag, hPrompt, fun value _ => hFallback value⟩

end WizardInput

/-! ## The inputs -/

section Inputs

variable {store : Store} {machine : Machine} {quiet : Bool}

theorem promptSelectBucket_asked :
    (promptSelectBucket store).Ensures (Asked fun bucketConfig _ => bucketConfig ∈ store.bucketConfigs) := by
  rw [promptSelectBucket]
  split
  · exact Asked.failed
  · rename_i only hOnly
    exact Asked.done (hOnly ▸ List.mem_singleton_self only)
  · rename_i first second rest hMany
    refine Asked.ask_bind rfl fun reply => Asked.orFail_bind fun selection _ => Asked.done ?_
    rw [hMany]
    exact List.get_mem _ _

theorem debugLogBucketInput_gives (flag : Option Text) : (debugLogBucketInput flag store).Gives fun _ _ => True :=
  WizardInput.gives_of_values (fun _ _ => trivial) (Asked.bind promptSelectBucket_asked fun _ _ _ => Asked.done trivial) fun _ _ => trivial

theorem numberInput_gives (flag : Option Nat) (prompt what : Text) {default : Nat} (hDefault : 0 < default) :
    (numberInput flag prompt what default).Gives fun value _ => 0 < value := by
  refine WizardInput.gives_of_values ?_ ?_ ?_
  · intro value hValue
    obtain ⟨given, -, hSame⟩ := Option.map_eq_some_iff.mp hValue
    rw [← Except.ok.inj hSame]
    exact Nat.lt_of_lt_of_le Nat.zero_lt_one (Nat.le_max_right given 1)
  · refine Asked.ask_bind rfl fun reply => Asked.orFail_bind fun value _ => Asked.done ?_
    exact Nat.lt_of_lt_of_le Nat.zero_lt_one (Nat.le_max_right value 1)
  · intro value hValue
    exact Except.ok.inj hValue ▸ hDefault

theorem tpslimitInput_gives (flag : Option Nat) : (tpslimitInput flag).Gives fun _ _ => True := by
  refine WizardInput.gives_of_values (fun _ _ => trivial) ?_ fun _ _ => trivial
  refine Asked.ask_bind rfl fun reply => Asked.orFail_bind fun value _ => ?_
  dsimp only
  split
  · exact Asked.done trivial
  · split
    · exact Asked.done trivial
    · exact Asked.failed

theorem defaultConcurrency_pos : 0 < machine.defaultConcurrency := by
  rw [Machine.defaultConcurrency]
  exact PNat.pos _

theorem cpuConcurrencyInput_gives (flag : Option Nat) : (cpuConcurrencyInput machine flag).Gives fun value _ => 0 < value := by
  refine WizardInput.gives_of_values ?_ ?_ (by rintro value ⟨⟩)
  · intro value hValue
    obtain ⟨given, -, hSame⟩ := Option.map_eq_some_iff.mp hValue
    rw [← Except.ok.inj hSame]
    have hCeiling : 0 < machine.defaultConcurrency * concurrencyClampMultiplier :=
      Nat.mul_pos defaultConcurrency_pos Nat.zero_lt_two
    exact lt_min (Nat.lt_of_lt_of_le Nat.zero_lt_one (Nat.le_max_right given 1)) hCeiling
  · refine Asked.ask_bind rfl fun reply => Asked.orFail_bind fun value _ => Asked.done ?_
    exact Nat.lt_of_lt_of_le Nat.zero_lt_one (Nat.le_max_right value 1)

theorem localOutputInput_gives (flag : Option Text) (prompt : Text) : (localOutputInput machine flag prompt).Gives fun _ _ => True :=
  WizardInput.gives_of_values (fun _ _ => trivial) (Asked.ask_bind rfl fun _ => Asked.of_orFail fun _ _ => trivial) fun _ _ => trivial

theorem optionInput_gives {α : Type} (flag : Option Text) (parse : Text → Except Text α) (prompt what : Text) (options : List Text)
    (default : Nat) (fallback : Except Text α) :
    (optionInput flag parse prompt what options default fallback).Gives fun _ _ => True := by
  refine WizardInput.gives_of_values (fun _ _ => trivial) ?_ fun _ _ => trivial
  exact Asked.ask_bind rfl fun _ => Asked.orFail_bind fun _ _ => Asked.of_orFail fun _ _ => trivial

theorem aliasName_withDefaultPrefix {target result : RemoteTarget} {defaultPrefix : Text}
    (h : target.withDefaultPrefix defaultPrefix = .ok result) : result.aliasName = target.aliasName := by
  rw [RemoteTarget.withDefaultPrefix] at h
  split at h
  · obtain ⟨keyPrefix, -, hResult⟩ := Fallible.bind_eq_ok h
    rw [← Except.ok.inj hResult]
  · exact congrArg _ (Except.ok.inj h).symm

theorem aliasName_completed {defaultPrefix : Option Text} {target completed : RemoteTarget}
    (h : bucketInput.completed defaultPrefix target = .ok completed) : completed.aliasName = target.aliasName := by
  cases defaultPrefix with
  | none => exact congrArg _ (Except.ok.inj h).symm
  | some defaultPrefix => exact aliasName_withDefaultPrefix h

/-- The keyring knows the alias of what is addressed. -/
theorem bucketInput_gives (flag : Option Text) (name : Text) (defaultPrefix : Option Text) :
    (bucketInput flag store name defaultPrefix).Gives fun target _ => store.containsAlias target.aliasName = true := by
  refine WizardInput.gives_of_values ?_ ?_ (by rintro value ⟨⟩)
  · intro target hTarget
    obtain ⟨value, -, hParsed⟩ := Option.map_eq_some_iff.mp hTarget
    cases hFound : bucketInput.parsed store defaultPrefix value with
    | error err =>
      rw [hFound] at hParsed
      cases hParsed
    | ok found =>
      rw [hFound] at hParsed
      obtain rfl : found = target := Except.ok.inj hParsed
      obtain ⟨parsed, hParse, hComplete⟩ := Fallible.bind_eq_ok hFound
      rw [aliasName_completed hComplete]
      exact (RemoteTarget.canonical_of_parse hParse).known
  · refine Asked.bind promptSelectBucket_asked fun bucketConfig earlier hKnown => Asked.of_orFail fun target hTarget => ?_
    rw [aliasName_completed hTarget]
    exact containsAlias_of_mem hKnown

end Inputs

/-! ## The steps -/

section Steps

variable {store : Store} {quiet : Bool}

/-- A binary answered, and did so with success unless that is not looked at. -/
def Answered (binary : Text) (demanding : Bool) (exchanges : List Exchange) : Prop :=
  ∃ arg output, ⟨.start binary arg, .ok output⟩ ∈ exchanges ∧ (demanding = true → output.success = true)

theorem Answered.mono {binary : Text} {demanding : Bool} {exchanges more : List Exchange} (h : Answered binary demanding exchanges)
    (hMore : exchanges ⊆ more) : Answered binary demanding more := by
  obtain ⟨arg, output, hOutput, hSuccess⟩ := h
  exact ⟨arg, output, hMore hOutput, hSuccess⟩

theorem loadKeyring_setup :
    loadKeyring.Ensures (Setup quiet fun store exchanges => ∃ path, ⟨.loadStore path, .ok store⟩ ∈ exchanges) := by
  refine Setup.ask_bind rfl rfl fun reply => Setup.orFail_bind fun path _ => Setup.ask_bind rfl rfl ?_
  have hLoad (earlier : List Exchange) : Failing.Ensures (ask (.loadStore path) >>= fun reply => orFail id reply)
      (Setup quiet fun store exchanges => ∃ path, ⟨.loadStore path, .ok store⟩ ∈ earlier ++ exchanges) := by
    refine Setup.ask_bind rfl rfl fun reply => Setup.of_orFail fun store hStore => ?_
    obtain rfl : reply = .ok store := hStore
    exact ⟨path, List.mem_append_right _ List.mem_cons_self⟩
  rintro (_ | explicit)
  · exact hLoad [_, _]
  · refine Setup.ask_bind rfl rfl fun found => ?_
    split
    · exact Setup.failed .nil
    · exact hLoad [_, _, _]

structure Prepared (store : Store) (exchanges : List Exchange) : Prop where
  started : Answered "rclone".toList false exchanges
  written : ∃ path, ⟨.writeSandboxedConfig store path, .ok ()⟩ ∈ exchanges

theorem Prepared.mono {exchanges more : List Exchange} (h : Prepared store exchanges) (hMore : exchanges ⊆ more) : Prepared store more :=
  ⟨h.started.mono hMore, h.written.imp fun _ hWritten => hMore hWritten⟩

theorem prepareRclone_setup : (prepareRclone store).Ensures (Setup quiet fun _ => Prepared store) := by
  refine Setup.ask_bind rfl rfl fun started => Setup.orFail_bind fun output hStarted => ?_
  refine Setup.ask_bind rfl rfl fun reply => Setup.orFail_bind fun path _ => ?_
  refine Setup.ask_bind rfl rfl fun written => Setup.of_orFail fun _ hWritten => ?_
  obtain rfl : started = .ok output := hStarted
  obtain rfl : written = .ok () := hWritten
  exact ⟨⟨_, output, List.mem_cons_self, nofun⟩, path, List.mem_cons_of_mem _ (List.mem_cons_of_mem _ List.mem_cons_self)⟩

theorem checkVersion_setup (binary why whyFailed : Text) :
    (checkVersion binary why whyFailed).Ensures (Setup quiet fun _ => Answered binary true) := by
  refine Setup.ask_bind rfl rfl fun reply => Setup.orFail_bind fun output hOutput => ?_
  obtain rfl : reply = .ok output := hOutput
  split
  · exact Setup.failed .nil
  · rename_i hSuccess
    exact Setup.done .nil ⟨_, output, List.mem_cons_self, fun _ => by simpa using hSuccess⟩

theorem checkFfmpegAvailable_setup :
    checkFfmpegAvailable.Ensures (Setup quiet fun _ exchanges => Answered "ffmpeg".toList false exchanges ∧ Answered "ffprobe".toList false exchanges) := by
  refine Setup.ask_bind rfl rfl fun encoder => Setup.orFail_bind fun output hOutput => ?_
  refine Setup.ask_bind rfl rfl fun prober => Setup.orFail_bind fun probed hProbed => Setup.done .nil ?_
  obtain rfl : encoder = .ok output := hOutput
  obtain rfl : prober = .ok probed := hProbed
  exact ⟨⟨_, output, List.mem_cons_self, nofun⟩, ⟨_, probed, List.mem_cons_of_mem _ List.mem_cons_self, nofun⟩⟩

def ExternalConverter.tools : ExternalConverter → List Tool
  | .none => []
  | .ffmpeg => [.ffmpeg]
  | .soffice => [.soffice]
  | .calibre => [.ebookConvert]
  | .pandoc => [.pandoc]
  | .ghostscriptThenSoffice => [.gs, .soffice]

/-- What is checked for is what the kind is converted with. -/
theorem tools_subset (kind : InputFileType) : kind.tools ⊆ (converterFor kind).tools := by
  cases kind <;> decide

/-- Each of the tools answered. Whether `ffmpeg` did so with success is not looked at. -/
def Equipped (tools : List Tool) (exchanges : List Exchange) : Prop :=
  ∀ tool ∈ tools, Answered tool.name (decide (tool ≠ .ffmpeg)) exchanges

theorem checkVersion_equips (tool : Tool) (why whyFailed : Text) :
    (checkVersion tool.name why whyFailed).Ensures (Setup quiet fun _ => Equipped [tool]) := by
  refine (checkVersion_setup tool.name why whyFailed).mono fun exchanges result h => h.mono ?_
  rintro value ⟨arg, output, hOutput, hSuccess⟩
  exact List.forall_mem_singleton.mpr ⟨arg, output, hOutput, fun _ => hSuccess rfl⟩

/-- Every tool that a conversion of this kind can run was found. -/
theorem requiredConverterAvailable_setup (kind : InputFileType) :
    (requiredConverterAvailable kind).Ensures (Setup quiet fun _ => Equipped kind.tools) := by
  suffices hAll : (requiredConverterAvailable kind).Ensures (Setup quiet fun _ => Equipped (converterFor kind).tools) from
    hAll.mono fun exchanges result h => h.mono fun value hTools tool hTool => hTools tool (tools_subset kind hTool)
  rw [requiredConverterAvailable]
  cases converterFor kind with
  | none => exact Setup.done .nil (List.forall_mem_nil _)
  | ffmpeg =>
    exact checkFfmpegAvailable_setup.mono fun exchanges result h => h.mono fun value hBoth => List.forall_mem_singleton.mpr hBoth.1
  | soffice => exact checkVersion_equips .soffice _ _
  | calibre => exact checkVersion_equips .ebookConvert _ _
  | pandoc => exact checkVersion_equips .pandoc _ _
  | ghostscriptThenSoffice =>
    refine Setup.bind (checkVersion_equips .gs _ _) fun _ earlier hFirst => ?_
    refine (checkVersion_equips .soffice _ _).mono fun later result h => h.mono fun value hSecond tool hTool => ?_
    obtain rfl | hTool := List.mem_cons.mp hTool
    · exact (hFirst _ List.mem_cons_self).mono (List.subset_append_left _ _)
    · exact (hSecond tool hTool).mono (List.subset_append_right _ _)

theorem resolveDebugLogBucket_setup (flag : Option Text) :
    (resolveDebugLogBucket flag store quiet).Ensures (Setup quiet fun bucketConfig _ => bucketConfig ∈ store.bucketConfigs) := by
  refine Setup.bind (debugLogBucketInput_gives flag).resolve fun aliasName earlier _ => ?_
  split
  · rename_i bucketConfig hFound
    exact Setup.done .nil (List.mem_of_find?_eq_some hFound)
  · exact Setup.failed .nil

/-- What goes on was agreed to. -/
def Agreed (quiet : Bool) (exchanges : List Exchange) : Prop := quiet = true ∨ ⟨proceed, .ok true⟩ ∈ exchanges

theorem confirmInput_gives :
    (confirmInput quiet).Gives fun goOn exchanges =>
      (goOn = true → Agreed quiet exchanges) ∧ (goOn = false → ⟨proceed, .ok false⟩ ∈ exchanges) where
  flag := by
    intro value hValue
    cases quiet with
    | false => cases hValue
    | true =>
      obtain rfl : true = value := Except.ok.inj (Option.some.inj hValue)
      exact ⟨fun _ => .inl rfl, nofun⟩
  prompt := by
    refine Asked.ask_bind rfl fun reply => Asked.of_orFail fun goOn hGoOn => ?_
    obtain rfl : reply = .ok goOn := hGoOn
    have hReplied {answer : Bool} (h : goOn = answer) : (⟨proceed, .ok answer⟩ : Exchange) ∈ [⟨.isTerminal, true⟩, ⟨proceed, .ok goOn⟩] :=
      h ▸ List.mem_cons_of_mem _ List.mem_cons_self
    exact ⟨fun hYes => .inr (hReplied hYes), hReplied⟩
  fallback := by rintro value exchanges ⟨⟩

theorem confirm_setup : (confirm quiet).Ensures (Setup quiet fun _ => Agreed quiet) := by
  refine .bind ((confirmInput_gives.resolve).mono fun earlier result hEarlier => ?_)
  cases result with
  | error stop => exact ⟨hEarlier.tame, nofun, fun hStop => hEarlier.declined (congrArg _ (Except.error.inj hStop))⟩
  | ok goOn =>
    obtain ⟨hAgreed, hDeclined⟩ := hEarlier.good goOn rfl
    cases goOn with
    | true =>
      show Setup quiet (fun _ => Agreed quiet) (earlier ++ []) (.ok ())
      rw [List.append_nil]
      exact .done hEarlier.tame (hAgreed rfl)
    | false =>
      rintro ⟨⟩
      have hTame : Tame quiet [(⟨.println "Cancelled.".toList, ()⟩ : Exchange)] := .single _ rfl rfl
      exact ⟨hEarlier.tame.append hTame, nofun, fun _ => List.mem_append_left _ (hDeclined rfl)⟩

theorem println_setup (line : Text) :
    Failing.Ensures (ask (.println line)) (Setup quiet fun _ exchanges => exchanges = [⟨.println line, ()⟩]) := by
  rintro ⟨⟩
  exact .done (.single _ rfl rfl) rfl

/-- What is there to see of some lines. -/
def shown (lines : List Text) : List Exchange := lines.map fun line => ⟨.println line, ()⟩

theorem printLines_setup (lines : List Text) : (printLines lines).Ensures (Setup quiet fun _ exchanges => exchanges = shown lines) := by
  induction lines with
  | nil => exact Setup.done .nil rfl
  | cons line lines ih =>
    refine Setup.bind (println_setup line) fun _ earlier hLine => ih.mono fun later result h => h.mono fun value hLines => ?_
    rw [hLine, hLines]
    rfl

theorem createLocalOutput_setup (localOutput : Text) : (createLocalOutput localOutput).Ensures (Setup quiet fun _ _ => True) :=
  Setup.ask_bind rfl rfl fun _ => Setup.of_orFail fun _ _ => trivial

theorem generateRun_setup (jobName : Text) : (generateRun jobName).Ensures (Setup quiet fun _ _ => True) :=
  Setup.ask_bind rfl rfl fun _ => Setup.ask_bind rfl rfl fun _ => Setup.done .nil trivial

theorem newTranscript_setup (localOutput : Text) :
    (newTranscript localOutput).Ensures (Setup quiet fun path exchanges => ⟨.createTranscript path, .ok ()⟩ ∈ exchanges) := by
  refine Setup.ask_bind rfl rfl fun reply => Setup.orFail_bind fun _ hCreated => Setup.done .nil ?_
  obtain rfl : reply = .ok () := hCreated
  exact List.mem_cons_self

end Steps

end Pigeon.Dispatch
