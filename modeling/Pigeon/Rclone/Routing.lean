import Pigeon.Library.Ini
import Pigeon.Rclone.Config

/-! # Where an alias leads

The generated file is read back as INI, and the remote of a section is followed until a section that is no alias.
-/
namespace Pigeon.Rclone

open Library Text Keyring

set_option autoImplicit false

/-- The section that a name leads to, and where in it the name is rooted. -/
def follow (sections : List Ini.Section) : Nat → Text → Option (Ini.Section × Text)
  | 0, _ => none
  | hops + 1, name => do
    let found ← Ini.lookup sections name
    if found.value "type".toList = some "alias".toList then
      let (next, root) ← splitOnce [':'] (← found.value "remote".toList)
      let (backend, base) ← follow sections hops next
      return (backend, if base = [] then root else base ++ '/' :: root)
    else return (found, [])

def backendSection (env : Environment) (bucketConfig : BucketConfig) : Ini.Section where
  name := backendSectionName bucketConfig.aliasName
  entries := [
    ("type".toList, "s3".toList),
    ("provider".toList, "Other".toList),
    ("access_key_id".toList, bucketConfig.accessKeyId),
    ("secret_access_key".toList, resolveSecret env bucketConfig.aliasName bucketConfig.secretKey),
    ("endpoint".toList, bucketConfig.endpoint),
    ("acl".toList, "private".toList),
    ("no_check_bucket".toList, "true".toList)]

def aliasSection (bucketConfig : BucketConfig) : Ini.Section where
  name := bucketConfig.aliasName
  entries := [
    ("type".toList, "alias".toList),
    ("remote".toList, backendSectionName bucketConfig.aliasName ++ ':' :: bucketConfig.bucket)]

def bucketSections (env : Environment) (bucketConfig : BucketConfig) : List Ini.Section :=
  [backendSection env bucketConfig, aliasSection bucketConfig]

/-- What the fields of a bucket-config are taken to be: text that stands on one line, and an alias without a colon. -/
structure Routable (bucketConfig : BucketConfig) : Prop where
  aliasName : Ini.Plain bucketConfig.aliasName
  colon : ':' ∉ bucketConfig.aliasName
  endpoint : Ini.Plain bucketConfig.endpoint
  bucket : Ini.Plain bucketConfig.bucket
  accessKeyId : Ini.Plain bucketConfig.accessKeyId
  secretKey : Ini.Plain bucketConfig.secretKey

/-! ## The contents -/

theorem configSections_eq (env : Environment) (bucketConfig : BucketConfig) :
    configSections env bucketConfig = Ini.render (bucketSections env bucketConfig) := by
  unfold configSections sectionsText
  simp only [Ini.render, bucketSections, List.flatMap_cons, List.flatMap_nil, Ini.sectionLines, backendSection,
    aliasSection, List.map_cons, List.map_nil, Ini.headerLine, Ini.entryLine, unlines_append, unlines_cons,
    List.append_nil]
  simp only [String.reduceToList, List.append_assoc, List.cons_append, List.nil_append]
  rfl

theorem pushSections_eq_ok {env : Environment} {store : Store} {contents next : Text} {bucketConfig : BucketConfig} :
    pushSections env store contents bucketConfig = .ok next ↔
      store.containsAlias (backendSectionName bucketConfig.aliasName) = false ∧
        next = contents ++ configSections env bucketConfig := by
  rw [pushSections]
  split
  · rename_i hTaken
    simp [hTaken]
  · rename_i hFree
    simp [hFree, eq_comm]

/-- The loop ends where no backend has the name of an alias, and has then written the sections of every bucket-config. -/
theorem foldlM_pushSections {env : Environment} {store : Store} {configs : List BucketConfig} {contents last : Text}
    (h : configs.foldlM (pushSections env store) contents = .ok last) :
    (∀ config ∈ configs, store.containsAlias (backendSectionName config.aliasName) = false) ∧
      last = contents ++ Ini.render (configs.flatMap (bucketSections env)) := by
  induction configs generalizing contents with
  | nil =>
    cases h
    exact ⟨fun _ hNone => absurd hNone List.not_mem_nil, (List.append_nil _).symm⟩
  | cons config configs ih =>
    rw [List.foldlM_cons] at h
    cases hPush : pushSections env store contents config with
    | error message =>
      rw [hPush] at h
      cases h
    | ok next =>
      rw [hPush] at h
      obtain ⟨hFree, rfl⟩ := pushSections_eq_ok.mp hPush
      obtain ⟨hRest, rfl⟩ := ih h
      refine ⟨List.forall_mem_cons.mpr ⟨hFree, hRest⟩, ?_⟩
      rw [List.flatMap_cons, Ini.render_append, configSections_eq, List.append_assoc]

theorem writeSandboxedConfig_eq_ok {env : Environment} {disk : Disk} {store : Store} {path : String}
    {parent : Option String} {contents : Text} (h : writeSandboxedConfig env disk store path parent = .ok contents) :
    store.bucketConfigs.foldlM (pushSections env store) [] = .ok contents := by
  rw [writeSandboxedConfig] at h
  cases hParent : disk.createParent parent with
  | error message =>
    rw [hParent] at h
    cases h
  | ok created =>
    rw [hParent] at h
    cases hContents : store.bucketConfigs.foldlM (pushSections env store) [] with
    | error message =>
      rw [hContents] at h
      cases h
    | ok written =>
      rw [hContents] at h
      obtain ⟨createDirAll, write, setPermissions⟩ := disk
      cases write with
      | error message => cases h
      | ok wrote =>
        cases setPermissions with
        | error message => cases h
        | ok set =>
          cases h
          rfl

/-! ## The sections -/

theorem plain_backendSectionName {aliasName : Text} (h : Ini.Plain aliasName) : Ini.Plain (backendSectionName aliasName) :=
  h.append (by decide)

theorem bucketSections_wellFormed {env : Environment} {config : BucketConfig} (h : Routable config)
    (hUnset : env (envVarName config.aliasName) = none) :
    ∀ written ∈ bucketSections env config, Ini.WellFormed written := by
  have hBackend := plain_backendSectionName h.aliasName
  have hSecret : Ini.Plain (resolveSecret env config.aliasName config.secretKey) := by
    rw [resolveSecret, hUnset]
    exact h.secretKey
  have hRemote : Ini.Plain (backendSectionName config.aliasName ++ ':' :: config.bucket) := by
    rw [List.append_cons]
    exact (hBackend.append (by decide)).append h.bucket
  rw [bucketSections, List.forall_mem_cons, List.forall_mem_singleton]
  constructor
  · refine ⟨hBackend, ?_, ?_⟩
    · simp only [backendSection, List.forall_mem_cons]
      decide
    · simp only [backendSection, List.forall_mem_cons]
      exact ⟨by decide, by decide, h.accessKeyId, hSecret, h.endpoint, by decide, by decide, nofun⟩
  · refine ⟨h.aliasName, ?_, ?_⟩
    · simp only [aliasSection, List.forall_mem_cons]
      decide
    · simp only [aliasSection, List.forall_mem_cons]
      exact ⟨by decide, hRemote, nofun⟩

theorem backendSectionName_injective {first second : Text} (h : backendSectionName first = backendSectionName second) :
    first = second := List.append_cancel_right h

theorem containsAlias_of_mem {store : Store} {config : BucketConfig} (h : config ∈ store.bucketConfigs) :
    store.containsAlias config.aliasName = true :=
  Store.containsAlias_iff.mpr ⟨.bucket config, Store.mem_bucketConfigs.mp h, rfl⟩

theorem nodup_names (env : Environment) {store : Store} (hDistinct : store.Distinct)
    (hFree : ∀ config ∈ store.bucketConfigs, store.containsAlias (backendSectionName config.aliasName) = false) :
    ((store.bucketConfigs.flatMap (bucketSections env)).map Ini.Section.name).Nodup := by
  have hApart {config other : BucketConfig} (hConfig : config ∈ store.bucketConfigs) (hOther : other ∈ store.bucketConfigs) :
      backendSectionName config.aliasName ≠ other.aliasName := by
    intro hSame
    have hTaken := containsAlias_of_mem hOther
    rw [← hSame, hFree config hConfig] at hTaken
    cases hTaken
  rw [List.map_flatMap, List.nodup_flatMap]
  constructor
  · intro config hConfig
    change [backendSectionName config.aliasName, config.aliasName].Nodup
    exact List.nodup_cons.mpr ⟨List.mem_singleton.not.mpr (hApart hConfig hConfig), List.nodup_singleton _⟩
  · apply (List.pairwise_map.mp hDistinct.bucketConfigs).imp_of_mem
    intro config other hConfig hOther hAliases name hName hOtherName
    change name ∈ [backendSectionName config.aliasName, config.aliasName] at hName
    change name ∈ [backendSectionName other.aliasName, other.aliasName] at hOtherName
    rw [List.mem_pair] at hName hOtherName
    rcases hName with rfl | rfl
    · rcases hOtherName with hBackends | hAlias
      · exact hAliases (backendSectionName_injective hBackends)
      · exact hApart hConfig hOther hAlias
    · rcases hOtherName with hAlias | hSame
      · exact hApart hOther hConfig hAlias.symm
      · exact hAliases hSame

/-! ## The chain of remotes -/

section Chain

variable {sections : List Ini.Section} {name : Text} {found : Ini.Section}

theorem follow_end (hFound : Ini.lookup sections name = some found) (hType : found.value "type".toList ≠ some "alias".toList)
    (hops : Nat) : follow sections (hops + 1) name = some (found, []) := by
  simp only [follow, hFound, Option.bind_eq_bind, Option.bind_some, if_neg hType]
  rfl

theorem follow_step {remote next root base : Text} {backend : Ini.Section} {hops : Nat}
    (hFound : Ini.lookup sections name = some found) (hType : found.value "type".toList = some "alias".toList)
    (hRemote : found.value "remote".toList = some remote) (hSplit : splitOnce [':'] remote = some (next, root))
    (hNext : follow sections hops next = some (backend, base)) :
    follow sections (hops + 1) name = some (backend, if base = [] then root else base ++ '/' :: root) := by
  simp only [follow, hFound, Option.bind_eq_bind, Option.bind_some, if_pos hType, hRemote, hSplit, hNext]
  rfl

end Chain

theorem follow_alias {env : Environment} {config : BucketConfig} {sections : List Ini.Section} (hColon : ':' ∉ config.aliasName)
    (hAlias : Ini.lookup sections config.aliasName = some (aliasSection config))
    (hBackend : Ini.lookup sections (backendSectionName config.aliasName) = some (backendSection env config)) (hops : Nat) :
    follow sections (hops + 2) config.aliasName = some (backendSection env config, config.bucket) := by
  have hSplit : splitOnce [':'] (backendSectionName config.aliasName ++ ':' :: config.bucket) =
      some (backendSectionName config.aliasName, config.bucket) := by
    rw [splitOnce_eq_some]
    refine ⟨rfl, ?_⟩
    rw [backendSectionName, List.mem_append, not_or]
    exact ⟨hColon, by decide⟩
  have hType : (backendSection env config).value "type".toList ≠ some "alias".toList := by
    change some "s3".toList ≠ some "alias".toList
    decide
  exact follow_step hAlias rfl rfl hSplit (follow_end hBackend hType hops)

/-- Where a file is written, no two of its sections share a name, and every alias of a bucket-config leads to a backend with
its own credentials and endpoint, rooted at its own bucket. -/
theorem writeSandboxedConfig_routes {env : Environment} {disk : Disk} {store : Store} {path : String}
    {parent : Option String} {contents : Text} (hDistinct : store.Distinct)
    (hRoutable : ∀ config ∈ store.bucketConfigs, Routable config)
    (hUnset : ∀ config ∈ store.bucketConfigs, env (envVarName config.aliasName) = none)
    (hWritten : writeSandboxedConfig env disk store path parent = .ok contents) :
    ∃ sections, Ini.parse contents = some ⟨[], sections⟩ ∧ (sections.map Ini.Section.name).Nodup ∧
      ∀ config ∈ store.bucketConfigs, ∃ backend,
        follow sections sections.length config.aliasName = some (backend, config.bucket) ∧
        backend.value "type".toList = some "s3".toList ∧
        backend.value "access_key_id".toList = some config.accessKeyId ∧
        backend.value "secret_access_key".toList = some config.secretKey ∧
        backend.value "endpoint".toList = some config.endpoint := by
  obtain ⟨hFree, rfl⟩ := foldlM_pushSections (writeSandboxedConfig_eq_ok hWritten)
  have hNames := nodup_names env hDistinct hFree
  refine ⟨store.bucketConfigs.flatMap (bucketSections env), ?_, hNames, ?_⟩
  · apply Ini.parse_render
    intro written hMem
    obtain ⟨config, hConfig, hWrittenFor⟩ := List.mem_flatMap.mp hMem
    exact bucketSections_wellFormed (hRoutable config hConfig) (hUnset config hConfig) written hWrittenFor
  · intro config hConfig
    have hMem (written : Ini.Section) (hOf : written ∈ bucketSections env config) :
        Ini.lookup (store.bucketConfigs.flatMap (bucketSections env)) written.name = some written :=
      Ini.lookup_of_mem hNames (List.mem_flatMap.mpr ⟨config, hConfig, hOf⟩)
    obtain ⟨hops, hLength⟩ : ∃ hops, (store.bucketConfigs.flatMap (bucketSections env)).length = hops + 2 := by
      obtain ⟨before, after, hSplit⟩ := List.append_of_mem hConfig
      rw [hSplit, List.flatMap_append, List.flatMap_cons, List.length_append, List.length_append]
      exact ⟨(before.flatMap (bucketSections env)).length + (after.flatMap (bucketSections env)).length, by
        change _ + (2 + _) = _
        omega⟩
    refine ⟨backendSection env config, ?_, rfl, rfl, ?_, rfl⟩
    · rw [hLength]
      exact follow_alias (hRoutable config hConfig).colon (hMem _ (List.mem_cons_of_mem _ List.mem_cons_self))
        (hMem _ List.mem_cons_self) hops
    · change some (resolveSecret env config.aliasName config.secretKey) = _
      rw [resolveSecret, hUnset config hConfig]
      rfl

/-- Two aliases for buckets of one name, and an email identity. -/
def twoBuckets : Store where
  entries := [
    .bucket ⟨"here".toList, "https://here".toList, "mail".toList, "K1".toList, "s1".toList⟩,
    .email ⟨"willow".toList, "app".toList⟩,
    .bucket ⟨"there".toList, "https://there".toList, "mail".toList, "K2".toList, "s2".toList⟩]

theorem writeSandboxedConfig_routes_twoBuckets :
    ∃ contents sections, writeSandboxedConfig (fun _ => none) ⟨.ok (), .ok (), .ok ()⟩ twoBuckets "rclone.conf" none = .ok contents ∧
      Ini.parse contents = some ⟨[], sections⟩ ∧
      ∃ backend, follow sections sections.length "there".toList = some (backend, "mail".toList) ∧
        backend.value "endpoint".toList = some "https://there".toList := by
  have hRoutable : ∀ config ∈ twoBuckets.bucketConfigs, Routable config := by
    intro config hConfig
    rcases List.mem_pair.mp hConfig with rfl | rfl
    · exact ⟨by decide, by decide, by decide, by decide, by decide, by decide⟩
    · exact ⟨by decide, by decide, by decide, by decide, by decide, by decide⟩
  obtain ⟨contents, hWritten⟩ : ∃ contents,
      writeSandboxedConfig (fun _ => none) ⟨.ok (), .ok (), .ok ()⟩ twoBuckets "rclone.conf" none = .ok contents := ⟨_, rfl⟩
  obtain ⟨sections, hParse, -, hLeads⟩ := writeSandboxedConfig_routes (by decide) hRoutable (fun _ _ => rfl) hWritten
  obtain ⟨backend, hFollow, -, -, -, hEndpoint⟩ := hLeads
    ⟨"there".toList, "https://there".toList, "mail".toList, "K2".toList, "s2".toList⟩ (by decide)
  exact ⟨contents, sections, hWritten, hParse, backend, hFollow, hEndpoint⟩

end Pigeon.Rclone
