import Pigeon.Library.Runs
import Pigeon.EmailImport.Deliver

/-! # Workers on one scratch directory

Each message goes through its own statements: the fetch writes its `.eml`, its parts are
staged one by one, and the garbage collection removes the `.eml` and the UID directory. The
workers interleave in any order on the scratch directory of one identity.
-/
namespace Pigeon.EmailImport

open Library

set_option autoImplicit false

/-- The garbage collection at the end of `deliver_one`. -/
def Message.collect (m : Message) (scratch : FileTree Bytes) : FileTree Bytes :=
  (scratch.removeFile m.emlPath).removeDirAll m.uidDir

inductive Stage where
  | idle
  | fetched
  | staging (rest : List MessagePart)
  | finished
deriving DecidableEq, Repr

structure Workers where
  tree : FileTree Bytes
  stage : Message → Stage
  /-- The files that a delivery wrote and did not collect yet. -/
  staged : List (Message × Path)

namespace Workers

def start (tree : FileTree Bytes) : Workers where
  tree := tree
  stage _ := .idle
  staged := []

def goto (s : Workers) (m : Message) (stage : Stage) : Workers :=
  { s with stage := Function.update s.stage m stage }

def step (parse : Bytes → Option (List MessagePart)) (s : Workers) (m : Message) : Option Workers :=
  match s.stage m with
  | .idle =>
    match m.fetch s.tree with
    | some tree => some { s.goto m .fetched with tree, staged := (m, m.emlPath) :: s.staged }
    | none => none
  | .fetched =>
    match s.tree.lookup m.emlPath with
    | some (.file bytes) => some (s.goto m (.staging ((parse bytes).getD [])))
    | some .dir => some (s.goto m (.staging []))
    -- `missing_file`: nothing to deliver and nothing to collect
    | none => some (s.goto m .finished)
  | .staging (part :: rest) =>
    let (tree, attachment) := stagePart s.tree m.attachmentsDir part
    some { s.goto m (.staging rest) with
      tree, staged := attachment.toList.map (fun attachment => (m, attachment.path)) ++ s.staged }
  | .staging [] =>
    some { s.goto m .finished with
      tree := m.collect s.tree, staged := s.staged.filter fun entry => entry.1 != m }
  | .finished => none

/-- Every file that is staged and not collected by its own delivery is there. -/
def Confined (s : Workers) : Prop :=
  ∀ m path, (m, path) ∈ s.staged → ∃ content, s.tree.lookup path = some (.file content)

end Workers

namespace Message

/-- The paths at which the delivery of the message writes files. -/
def Writes (parse : Bytes → Option (List MessagePart)) (m : Message) (path : Path) : Prop :=
  path = m.emlPath ∨
    ∃ name, path = m.attachmentsDir ++ [name] ∧ ∀ other : Message, other.emlName = name → m.Carries parse name

/-- The collection of `m` removes a file that the delivery of the other message stages. -/
def Overlaps (parse : Bytes → Option (List MessagePart)) (m other : Message) : Prop :=
  (m.relpath = other.relpath ∧ m.uid = other.uid) ∨ m.uidDir <+: other.relpath ∨ m.AmongAttachments parse other

/-- Where the recursive removal reaches a file of another message, the mailbox folders are
nested, or it is stopped by the file itself. -/
theorem uidDir_prefix {parse : Bytes → Option (List MessagePart)} {m other : Message} {path : Path}
    (hPath : other.Writes parse path) (hPrefix : m.uidDir <+: path) :
    (m.relpath = other.relpath ∧ m.uid = other.uid) ∨ m.uidDir <+: other.relpath ∨ path = m.uidDir := by
  obtain rfl | ⟨name, rfl, -⟩ := hPath
  · obtain hSame | hRelpath := List.prefix_concat_iff.mp hPrefix
    · exact .inr (.inr hSame.symm)
    · exact .inr (.inl hRelpath)
  · obtain hSame | hDir := List.prefix_concat_iff.mp hPrefix
    · exact .inr (.inr hSame.symm)
    obtain hAttachments | hUidDir := List.prefix_concat_iff.mp hDir
    · exact absurd (Path.child_inj.mp hAttachments).2 m.uidName_ne_attachments
    obtain hSame | hRelpath := List.prefix_concat_iff.mp hUidDir
    · obtain ⟨hRelpath, hUid⟩ := Path.child_inj.mp hSame
      exact .inl ⟨hRelpath, Text.showU32_injective hUid⟩
    · exact .inr (.inl hRelpath)

theorem collect_keeps {parse : Bytes → Option (List MessagePart)} {m other : Message} (h : ¬ m.Overlaps parse other)
    {path : Path} (hPath : other.Writes parse path) {scratch : FileTree Bytes} {content : Bytes}
    (hFile : scratch.lookup path = some (.file content)) :
    (m.collect scratch).lookup path = some (.file content) := by
  have hEml : path ≠ m.emlPath := by
    rintro rfl
    obtain hSame | ⟨name, hSame, hCarries⟩ := hPath
    · exact h (.inl (emlPath_eq_emlPath.mp hSame))
    · obtain ⟨hRelpath, rfl⟩ := Path.child_inj.mp hSame
      exact h (.inr (.inr ⟨hRelpath, hCarries m rfl⟩))
  have hKept := (scratch.lookup_removeFile hEml).trans hFile
  rw [collect, FileTree.lookup_removeDirAll]
  · exact hKept
  · by_cases hPrefix : m.uidDir <+: path
    · obtain hSame | hNested | hSame := uidDir_prefix hPath hPrefix
      · exact absurd (.inl hSame) h
      · exact absurd (.inr (.inl hNested)) h
      · exact .inr ⟨content, hSame, hSame ▸ hKept⟩
    · exact .inl hPrefix

theorem collect_removes_eml (m : Message) {scratch : FileTree Bytes} {content : Bytes}
    (hFile : scratch.lookup m.emlPath = some (.file content)) : (m.collect scratch).lookup m.emlPath = none := by
  have hGone := scratch.lookup_removeFile_self hFile
  rw [collect, FileTree.lookup_removeDirAll]
  · exact hGone
  · refine .inl fun hPrefix => ?_
    have hSame := hPrefix.eq_of_length (by simp [uidDir, emlPath])
    exact emlName_ne_uidName m m (Path.child_inj.mp hSame).2.symm

theorem collect_removes_below (m : Message) {scratch : FileTree Bytes} {path : Path}
    (hDir : scratch.lookup m.uidDir = some .dir) (hBelow : m.uidDir <+: path) :
    (m.collect scratch).lookup path = none := by
  have hRoot : path ≠ [] := by
    rintro rfl
    simp [uidDir] at hBelow
  have hNe : m.uidDir ≠ m.emlPath := fun hSame => emlName_ne_uidName m m (Path.child_inj.mp hSame).2.symm
  exact FileTree.lookup_removeDirAll_below _ ((scratch.lookup_removeFile hNe).trans hDir) hBelow hRoot

end Message

namespace Workers

variable {parse : Bytes → Option (List MessagePart)}

@[simp] theorem stage_goto_self (s : Workers) (m : Message) (stage : Stage) : (s.goto m stage).stage m = stage := by
  simp [goto]

theorem stage_goto_other (s : Workers) {m other : Message} (stage : Stage) (h : other ≠ m) :
    (s.goto m stage).stage other = s.stage other := by simp [goto, h]

inductive Move (parse : Bytes → Option (List MessagePart)) (s : Workers) (m : Message) : Workers → Prop
  | fetch (tree : FileTree Bytes) (hStage : s.stage m = .idle) (hFetch : m.fetch s.tree = some tree) :
      Move parse s m { s.goto m .fetched with tree, staged := (m, m.emlPath) :: s.staged }
  | read (bytes : Bytes) (hStage : s.stage m = .fetched) (hFile : s.tree.lookup m.emlPath = some (.file bytes)) :
      Move parse s m (s.goto m (.staging ((parse bytes).getD [])))
  | unreadable (stage : Stage) (hStage : s.stage m = .fetched) (hNext : stage = .staging [] ∨ stage = .finished) :
      Move parse s m (s.goto m stage)
  | part (part : MessagePart) (rest : List MessagePart) (tree : FileTree Bytes) (attachment : Option StagedAttachment)
      (hStage : s.stage m = .staging (part :: rest)) (hPart : StagesPart s.tree m.attachmentsDir part tree attachment) :
      Move parse s m { s.goto m (.staging rest) with
        tree, staged := attachment.toList.map (fun attachment => (m, attachment.path)) ++ s.staged }
  | collect (hStage : s.stage m = .staging []) :
      Move parse s m { s.goto m .finished with
        tree := m.collect s.tree, staged := s.staged.filter fun entry => entry.1 != m }

theorem step_move {s next : Workers} {m : Message} (h : step parse s m = some next) : Move parse s m next := by
  rw [step] at h
  cases hStage : s.stage m with
  | idle =>
    simp only [hStage] at h
    split at h
    · rename_i tree hFetch
      cases h
      exact .fetch tree hStage hFetch
    · cases h
  | fetched =>
    simp only [hStage] at h
    split at h
    · rename_i bytes hFile
      cases h
      exact .read bytes hStage hFile
    · cases h
      exact .unreadable _ hStage (.inl rfl)
    · cases h
      exact .unreadable _ hStage (.inr rfl)
  | staging rest =>
    cases rest with
    | nil =>
      simp only [hStage, Option.some.injEq] at h
      exact h ▸ .collect hStage
    | cons part rest =>
      simp only [hStage, Option.some.injEq] at h
      exact h ▸ .part part rest _ _ hStage (stagePart_spec s.tree m.attachmentsDir part)
  | finished => simp [hStage] at h

/-- The files of the active deliveries are where they were written. -/
structure Inv (parse : Bytes → Option (List MessagePart)) (active : Message → Prop) (s : Workers) : Prop where
  present : s.Confined
  owned : ∀ m path, (m, path) ∈ s.staged → active m ∧ m.Writes parse path
  fetched : ∀ m, active m → s.stage m = .fetched → m.Fetched s.tree
  parts : ∀ m rest, active m → s.stage m = .staging rest → rest ⊆ m.parts parse

theorem inv_start (parse : Bytes → Option (List MessagePart)) (active : Message → Prop) (tree : FileTree Bytes) :
    Inv parse active (start tree) where
  present _ _ h := nomatch h
  owned _ _ h := nomatch h
  fetched _ _ h := nomatch h
  parts _ _ _ h := nomatch h

theorem writes_of_staged {m : Message} {part : MessagePart} {scratch tree : FileTree Bytes}
    {attachment : StagedAttachment} (hPart : part ∈ m.parts parse)
    (hSpec : StagesPart scratch m.attachmentsDir part tree (some attachment)) : m.Writes parse attachment.path := by
  obtain ⟨hPath, -, -, hName, -⟩ := hSpec.staged_spec
  refine .inr ⟨attachment.name, hPath, ?_⟩
  rintro other hOther
  refine ⟨part, hPart, hSpec.not_skipped, ?_⟩
  obtain hSame | hHyphen := hName
  · exact hSame.symm
  · rw [← hOther] at hHyphen
    exact absurd hHyphen (other.not_mem_emlName (by decide) (by decide))

section Preserved

variable {active : Message → Prop} {s next : Workers} {m : Message}

theorem Move.file_kept (hMove : Move parse s m next) {path : Path} {content : Bytes}
    (hFile : s.tree.lookup path = some (.file content))
    (hCollect : s.stage m = .staging [] → ∃ other, ¬ m.Overlaps parse other ∧ other.Writes parse path) :
    ∃ content, next.tree.lookup path = some (.file content) := by
  cases hMove with
  | fetch tree _ hFetch =>
    change ∃ content, tree.lookup path = some (.file content)
    rw [Message.lookup_fetch hFetch]
    split
    · exact ⟨m.body, rfl⟩
    · split
      · rename_i hPrefix
        obtain ⟨made, hMade, -⟩ := Option.bind_eq_some_iff.mp hFetch
        rw [FileTree.createDirAll_eq_none hPrefix hFile] at hMade
        cases hMade
      · exact ⟨content, hFile⟩
  | read => exact ⟨content, hFile⟩
  | unreadable => exact ⟨content, hFile⟩
  | part _ _ _ _ _ hPart => exact ⟨content, hPart.keeps hFile⟩
  | collect hStage =>
    obtain ⟨other, hApart, hWrites⟩ := hCollect hStage
    exact ⟨content, Message.collect_keeps hApart hWrites hFile⟩

theorem mem_staged_part {m other : Message} {path : Path} {attachment : Option StagedAttachment} {staged : List (Message × Path)}
    (h : (other, path) ∈ attachment.toList.map (fun attachment => (m, attachment.path)) ++ staged) :
    (∃ given, attachment = some given ∧ other = m ∧ path = given.path) ∨ (other, path) ∈ staged := by
  obtain hNew | hPrior := List.mem_append.mp h
  · obtain ⟨given, hGiven, hEq⟩ := List.mem_map.mp hNew
    cases hEq
    exact .inl ⟨given, Option.mem_toList.mp hGiven, rfl, rfl⟩
  · exact .inr hPrior

theorem Inv.present_move (h : Inv parse active s) (hActive : active m)
    (hApart : ∀ m other, active m → active other → m ≠ other → ¬ m.Overlaps parse other)
    (hMove : Move parse s m next) : next.Confined := by
  have hOld (other : Message) (path : Path) (hStaged : (other, path) ∈ s.staged)
      (hOther : s.stage m = .staging [] → other ≠ m) : ∃ content, next.tree.lookup path = some (.file content) := by
    obtain ⟨content, hFile⟩ := h.present other path hStaged
    obtain ⟨hOtherActive, hWrites⟩ := h.owned other path hStaged
    exact hMove.file_kept hFile fun hStage => ⟨other, hApart m other hActive hOtherActive (hOther hStage).symm, hWrites⟩
  intro other path hStaged
  cases hMove with
  | fetch tree hStage hFetch =>
    obtain hNew | hPrior := List.mem_cons.mp hStaged
    · cases hNew
      exact ⟨m.body, Message.fetched_of_fetch hFetch⟩
    · exact hOld other path hPrior (by simp [hStage])
  | read _ hStage => exact hOld other path hStaged (by simp [hStage])
  | unreadable _ hStage => exact hOld other path hStaged (by simp [hStage])
  | part part rest tree attachment hStage hPart =>
    obtain ⟨given, rfl, rfl, rfl⟩ | hPrior := mem_staged_part hStaged
    · exact ⟨part.contents, hPart.staged_spec.2.2.1⟩
    · exact hOld other path hPrior (by simp [hStage])
  | collect hStage =>
    obtain ⟨hPrior, hOther⟩ := List.mem_filter.mp hStaged
    exact hOld other path hPrior fun _ => by simpa using hOther

theorem Inv.owned_move (h : Inv parse active s) (hActive : active m) (hMove : Move parse s m next) :
    ∀ other path, (other, path) ∈ next.staged → active other ∧ other.Writes parse path := by
  intro other path hStaged
  cases hMove with
  | fetch tree hStage hFetch =>
    obtain hNew | hPrior := List.mem_cons.mp hStaged
    · cases hNew
      exact ⟨hActive, .inl rfl⟩
    · exact h.owned other path hPrior
  | read => exact h.owned other path hStaged
  | unreadable => exact h.owned other path hStaged
  | part part rest tree attachment hStage hPart =>
    obtain ⟨given, rfl, rfl, rfl⟩ | hPrior := mem_staged_part hStaged
    · exact ⟨hActive, writes_of_staged (h.parts other _ hActive hStage List.mem_cons_self) hPart⟩
    · exact h.owned other path hPrior
  | collect => exact h.owned other path (List.mem_filter.mp hStaged).1

theorem Move.stage_other (hMove : Move parse s m next) {other : Message} (hNe : other ≠ m) :
    next.stage other = s.stage other := by
  cases hMove <;> exact stage_goto_other s _ hNe

theorem Move.fetched_kept (hMove : Move parse s m next) {other : Message} (hForward : ¬ m.Overlaps parse other)
    (hFetched : other.Fetched s.tree) : other.Fetched next.tree := by
  cases hMove with
  | fetch tree _ hFetch =>
    change tree.lookup other.emlPath = some (.file other.body)
    rw [Message.lookup_fetch hFetch, if_neg, if_neg]
    · exact hFetched
    · exact fun hPrefix => other.emlPath_not_prefix m (hPrefix.trans ⟨[m.uidName, "attachments".toList], by
        simp [Message.attachmentsDir, Message.uidDir]⟩)
    · exact fun hSame => hForward (.inl (Message.emlPath_eq_emlPath.mp hSame.symm))
  | read => exact hFetched
  | unreadable => exact hFetched
  | part _ _ _ _ _ hPart => exact hPart.keeps hFetched
  | collect => exact Message.collect_keeps hForward (.inl rfl) hFetched

theorem Inv.fetched_move (h : Inv parse active s) (hActive : active m)
    (hApart : ∀ m other, active m → active other → m ≠ other → ¬ m.Overlaps parse other)
    (hMove : Move parse s m next) (other : Message) (hOther : active other) (hStage : next.stage other = .fetched) :
    other.Fetched next.tree := by
  by_cases hSame : other = m
  · subst other
    cases hMove with
    | fetch tree _ hFetch => exact Message.fetched_of_fetch hFetch
    | unreadable _ _ hNext => obtain rfl | rfl := hNext <;> simp at hStage
    | read | part | collect => simp at hStage
  · rw [hMove.stage_other hSame] at hStage
    exact hMove.fetched_kept (hApart m other hActive hOther (Ne.symm hSame)) (h.fetched other hOther hStage)

theorem Inv.parts_move (h : Inv parse active s) (hMove : Move parse s m next) (other : Message)
    (rest : List MessagePart) (hOther : active other) (hStage : next.stage other = .staging rest) :
    rest ⊆ other.parts parse := by
  by_cases hSame : other = m
  · subst other
    cases hMove with
    | fetch => simp at hStage
    | read bytes hFetched hFile =>
      have hBody := h.fetched m hOther hFetched
      rw [Message.Fetched, hFile] at hBody
      cases hBody
      simp only [stage_goto_self, Stage.staging.injEq] at hStage
      rw [← hStage]
      exact List.Subset.refl _
    | unreadable _ _ hNext =>
      obtain rfl | rfl := hNext
      · simp only [stage_goto_self, Stage.staging.injEq] at hStage
        simp [← hStage]
      · simp at hStage
    | part part later _ _ hStaging _ =>
      have hAll := h.parts m _ hOther hStaging
      simp only [stage_goto_self, Stage.staging.injEq] at hStage
      rw [← hStage]
      exact fun other hMem => hAll (List.mem_cons_of_mem part hMem)
    | collect => simp at hStage
  · rw [hMove.stage_other hSame] at hStage
    exact h.parts other rest hOther hStage

theorem Inv.move (h : Inv parse active s) (hActive : active m)
    (hApart : ∀ m other, active m → active other → m ≠ other → ¬ m.Overlaps parse other)
    (hMove : Move parse s m next) : Inv parse active next where
  present := h.present_move hActive hApart hMove
  owned := h.owned_move hActive hMove
  fetched := h.fetched_move hActive hApart hMove
  parts := h.parts_move hMove

end Preserved

/-! ## A run that loses a file -/

theorem run_parts (s : Workers) (m : Message) (rest : List MessagePart) (hStage : s.stage m = .staging rest) :
    ∃ t, run (step parse) s (List.replicate rest.length m) = some t ∧ t.stage m = .staging [] ∧
      t.tree = (stageParts s.tree m.attachmentsDir rest).1 ∧ (∀ other, other ≠ m → t.stage other = s.stage other) ∧
      s.staged ⊆ t.staged ∧
      ∀ attachment ∈ (stageParts s.tree m.attachmentsDir rest).2, (m, attachment.path) ∈ t.staged := by
  induction rest generalizing s with
  | nil => exact ⟨s, rfl, hStage, rfl, fun _ _ => rfl, List.Subset.refl _, fun _ h => nomatch h⟩
  | cons part rest ih =>
    let next : Workers := { s.goto m (.staging rest) with
      tree := (stagePart s.tree m.attachmentsDir part).1
      staged := (stagePart s.tree m.attachmentsDir part).2.toList.map (fun attachment => (m, attachment.path)) ++ s.staged }
    have hNext : step parse s m = some next := by
      rw [step]
      simp only [hStage]
      rfl
    obtain ⟨t, hRun, hEnd, hTree, hOthers, hStaged, hAttachments⟩ := ih next (stage_goto_self s m (.staging rest))
    refine ⟨t, ?_, hEnd, hTree, ?_, ?_, ?_⟩
    · rw [List.length_cons, List.replicate_succ, run_cons, hNext]
      exact hRun
    · intro other hNe
      rw [hOthers other hNe]
      exact stage_goto_other s _ hNe
    · exact fun entry hEntry => hStaged (List.mem_append_right _ hEntry)
    · rw [stageParts_cons]
      intro attachment hAttachment
      obtain hHere | hLater := List.mem_append.mp hAttachment
      · exact hStaged (List.mem_append_left _ (List.mem_map.mpr ⟨attachment, hHere, rfl⟩))
      · exact hAttachments attachment hLater

theorem run_until_collect (parse : Bytes → Option (List MessagePart)) (s : Workers) (m : Message)
    {fetched : FileTree Bytes} (hIdle : s.stage m = .idle) (hFetch : m.fetch s.tree = some fetched) :
    ∃ t, run (step parse) s (m :: m :: List.replicate (m.parts parse).length m) = some t ∧ t.stage m = .staging [] ∧
      t.tree = (stageParts fetched m.attachmentsDir (m.parts parse)).1 ∧
      (∀ other, other ≠ m → t.stage other = s.stage other) ∧ s.staged ⊆ t.staged ∧ (m, m.emlPath) ∈ t.staged ∧
      ∀ attachment ∈ (stageParts fetched m.attachmentsDir (m.parts parse)).2, (m, attachment.path) ∈ t.staged := by
  let first : Workers := { s.goto m .fetched with tree := fetched, staged := (m, m.emlPath) :: s.staged }
  have hFirst : step parse s m = some first := by
    rw [step]
    simp only [hIdle, hFetch]
    rfl
  let second : Workers := first.goto m (.staging (m.parts parse))
  have hSecond : step parse first m = some second := by
    have hStage : first.stage m = .fetched := stage_goto_self s m .fetched
    have hFile : first.tree.lookup m.emlPath = some (.file m.body) := Message.fetched_of_fetch hFetch
    rw [step]
    simp only [hStage, hFile]
    rfl
  obtain ⟨t, hRun, hEnd, hTree, hOthers, hStaged, hAttachments⟩ :=
    run_parts second m (m.parts parse) (stage_goto_self first m _)
  refine ⟨t, ?_, hEnd, hTree, ?_, ?_, ?_, hAttachments⟩
  · rw [run_cons, hFirst, Option.bind_some, run_cons, hSecond]
    exact hRun
  · intro other hNe
    rw [hOthers other hNe, stage_goto_other first _ hNe]
    exact stage_goto_other s _ hNe
  · exact fun entry hEntry => hStaged (List.mem_cons_of_mem _ hEntry)
  · exact hStaged List.mem_cons_self

theorem relpath_prefix_of_overlaps {m other : Message} (h : m.Overlaps parse other) :
    m.relpath <+: other.attachmentsDir := by
  have hFolder : other.relpath <+: other.attachmentsDir :=
    ⟨[other.uidName, "attachments".toList], by simp [Message.attachmentsDir, Message.uidDir]⟩
  obtain ⟨hRelpath, -⟩ | hNested | ⟨hRelpath, -⟩ := h
  · exact hRelpath ▸ hFolder
  · exact ((List.prefix_append m.relpath [m.uidName]).trans hNested).trans hFolder
  · exact hRelpath ▸ List.prefix_refl _

theorem exists_lost_file {m other : Message} (hOverlaps : m.Overlaps parse other) {fetched refetched : FileTree Bytes}
    (hFetch : other.fetch FileTree.empty = some fetched)
    (hRefetch : m.fetch (stageParts fetched other.attachmentsDir (other.parts parse)).1 = some refetched) :
    ∃ path, (path = other.emlPath ∨
        ∃ attachment ∈ (stageParts fetched other.attachmentsDir (other.parts parse)).2, path = attachment.path) ∧
      (m.collect (stageParts refetched m.attachmentsDir (m.parts parse)).1).lookup path = none := by
  have hEml : (stageParts refetched m.attachmentsDir (m.parts parse)).1.lookup m.emlPath = some (.file m.body) :=
    stageParts_keeps _ (Message.fetched_of_fetch hRefetch)
  obtain hSame | hNested | hAmong := hOverlaps
  · refine ⟨other.emlPath, .inl rfl, ?_⟩
    rw [← Message.emlPath_eq_emlPath.mpr hSame]
    exact m.collect_removes_eml hEml
  · refine ⟨other.emlPath, .inl rfl, m.collect_removes_below ?_ (hNested.trans (List.prefix_append _ _))⟩
    have hNe : m.uidDir ≠ other.emlPath := by
      intro hEq
      have hLength := hNested.length_le
      rw [hEq, Message.emlPath, List.length_append, List.length_singleton] at hLength
      omega
    have hDir : fetched.lookup m.uidDir = some .dir := by
      rw [Message.lookup_fetch hFetch, if_neg hNe, if_pos hNested]
    apply stageParts_keeps _
    rw [Message.lookup_fetch hRefetch, if_neg, if_neg]
    · exact stageParts_keeps _ hDir
    · exact not_prefix_of_name m.relpath m.uidName
    · exact fun hEq => Message.emlName_ne_uidName m m (Path.child_inj.mp hEq).2.symm
  · obtain ⟨attachment, hStaged, hName⟩ := staged_of_carries hFetch hAmong.2
    refine ⟨attachment.path, .inr ⟨attachment, hStaged, rfl⟩, ?_⟩
    rw [(mem_stageParts hStaged).1, hName, ← hAmong.1]
    exact m.collect_removes_eml hEml

theorem exists_unconfined {m other : Message} (hNe : m ≠ other) (hOverlaps : m.Overlaps parse other) :
    ∃ schedule s, (∀ e ∈ schedule, e = m ∨ e = other) ∧ run (step parse) (start FileTree.empty) schedule = some s ∧
      ¬ s.Confined := by
  obtain ⟨fetched, hFetch⟩ := other.fetch_empty
  obtain ⟨s, hRun, -, hTree, hIdle, -, hEml, hAttachments⟩ :=
    run_until_collect parse (start FileTree.empty) other rfl hFetch
  have hPassable : Passable s.tree other.attachmentsDir := by
    rw [hTree]
    exact stageParts_passable _ (Message.passable_of_fetch hFetch fun path content _ => FileTree.empty_noFile path content)
  have hRefetch : ∃ refetched, m.fetch s.tree = some refetched := by
    refine Message.fetch_isSome (fun path content hPath => ?_) fun hDir => ?_
    · exact hPassable.noFile path content (hPath.trans (relpath_prefix_of_overlaps hOverlaps))
    · rw [hTree] at hDir
      obtain hFetched | hPrefix := stageParts_dirs _ hDir
      · rw [Message.lookup_fetch hFetch] at hFetched
        split at hFetched
        · cases hFetched
        · split at hFetched
          · rename_i hPrefix
            exact m.emlPath_not_prefix other (hPrefix.trans
              ⟨[other.uidName, "attachments".toList], by simp [Message.attachmentsDir, Message.uidDir]⟩)
          · simp [Message.emlPath] at hFetched
      · exact m.emlPath_not_prefix other hPrefix
  obtain ⟨refetched, hRefetch⟩ := hRefetch
  obtain ⟨t, hNext, hStaging, hNextTree, -, hStaged, -⟩ :=
    run_until_collect parse s m (hIdle m hNe) hRefetch
  let final : Workers := { t.goto m .finished with
    tree := m.collect t.tree, staged := t.staged.filter fun entry => entry.1 != m }
  have hFinal : step parse t m = some final := by
    rw [step]
    simp only [hStaging]
    rfl
  obtain ⟨path, hOwner, hLost⟩ := exists_lost_file hOverlaps hFetch (hTree ▸ hRefetch)
  have hLast : run (step parse) t [m] = some final := by
    rw [run_cons, hFinal]
    rfl
  refine ⟨_, final, ?_, run_append_eq_some (run_append_eq_some hRun hNext) hLast, fun hConfined => ?_⟩
  · intro e he
    simp only [List.mem_append, List.mem_cons, List.mem_replicate, List.not_mem_nil, or_false] at he
    obtain ((rfl | rfl | ⟨-, rfl⟩) | (rfl | rfl | ⟨-, rfl⟩)) | rfl := he <;> simp
  · have hOther : (other, path) ∈ t.staged := by
      obtain rfl | ⟨attachment, hAttachment, rfl⟩ := hOwner
      · exact hStaged hEml
      · exact hStaged (hAttachments attachment hAttachment)
    have hLeft : (other, path) ∈ final.staged := List.mem_filter.mpr ⟨hOther, by simpa using hNe.symm⟩
    obtain ⟨content, hFile⟩ := hConfined other path hLeft
    change (m.collect t.tree).lookup path = some (.file content) at hFile
    rw [hNextTree, hLost] at hFile
    cases hFile

/-- For any set of messages, no interleaving of their deliveries lets a garbage collection
remove a file of another delivery, exactly when no two of them overlap. -/
theorem confined_iff (parse : Bytes → Option (List MessagePart)) (active : Message → Prop) :
    (∀ tree schedule s, (∀ m ∈ schedule, active m) → run (step parse) (start tree) schedule = some s → s.Confined) ↔
      ∀ m other, active m → active other → m ≠ other → ¬ m.Overlaps parse other := by
  constructor
  · intro hConfined m other hActive hOther hNe hOverlaps
    obtain ⟨schedule, s, hMembers, hRun, hLost⟩ := exists_unconfined hNe hOverlaps
    refine hLost (hConfined FileTree.empty schedule s (fun e he => ?_) hRun)
    obtain rfl | rfl := hMembers e he
    · exact hActive
    · exact hOther
  · intro hApart tree schedule s hActive hRun
    exact (run_invariant (Inv parse active)
      (fun s m next hInv hActive hStep => hInv.move hActive hApart (step_move hStep))
      (Within.of_mem hActive (start tree)) hRun (inv_start parse active tree)).present

/-- The folder of the mailbox `INBOX/5` is the UID directory of message 5 of `INBOX`. -/
theorem nested_mailbox_collected :
    ∃ (m other : Message) (s : Workers), m.mailbox ≠ other.mailbox ∧
      run (step fun _ => none) (start FileTree.empty) [m, other, m, m] = some s ∧ ¬ s.Confined := by
  let m : Message := ⟨"INBOX".toList, some ['/'], 7, 5, [1]⟩
  let other : Message := ⟨"INBOX/5".toList, some ['/'], 7, 1, [2]⟩
  have hRun : (run (step fun _ => none) (start FileTree.empty) [m, other, m, m]).map
      (fun s => (decide ((other, other.emlPath) ∈ s.staged), s.tree.lookup other.emlPath)) = some (true, none) := by
    decide
  obtain ⟨s, hRun, hLost⟩ := Option.map_eq_some_iff.mp hRun
  obtain ⟨hStaged, hGone⟩ := Prod.mk.inj hLost
  refine ⟨m, other, s, by decide, hRun, fun hConfined => ?_⟩
  obtain ⟨content, hFile⟩ := hConfined other other.emlPath (of_decide_eq_true hStaged)
  rw [hGone] at hFile
  cases hFile

end Workers

end Pigeon.EmailImport
