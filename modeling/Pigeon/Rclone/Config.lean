import Pigeon.Keyring.Credentials
import Pigeon.Keyring.Store
import Pigeon.Library.Trim

/-! # The sandboxed config of rclone, and the addresses into it

Each bucket-config becomes two sections: an `s3` backend, and an alias that leads into it at the configured bucket. A remote
target is an alias with an optional prefix.
-/
namespace Pigeon.Rclone

open Library Text Keyring

set_option autoImplicit false

def backendSectionSuffix : Text := ".s3".toList

def backendSectionName (aliasName : Text) : Text := aliasName ++ backendSectionSuffix

/-- What is formatted for a bucket-config: its backend, and the alias that leads there. -/
def sectionsText (backend secretAccessKey : Text) (bucketConfig : BucketConfig) : Text :=
  "[".toList ++ backend ++ "]\ntype = s3\nprovider = Other\naccess_key_id = ".toList ++ bucketConfig.accessKeyId ++
    "\nsecret_access_key = ".toList ++ secretAccessKey ++ "\nendpoint = ".toList ++ bucketConfig.endpoint ++
    "\nacl = private\nno_check_bucket = true\n\n[".toList ++ bucketConfig.aliasName ++
    "]\ntype = alias\nremote = ".toList ++ backend ++ ":".toList ++ bucketConfig.bucket ++ "\n\n".toList

def configSections (env : Environment) (bucketConfig : BucketConfig) : Text :=
  sectionsText (backendSectionName bucketConfig.aliasName)
    (resolveSecret env bucketConfig.aliasName bucketConfig.secretKey) bucketConfig

def collision (bucketConfig : BucketConfig) : String :=
  s!"cannot generate an rclone config: the backend section for bucket-config '{String.ofList bucketConfig.aliasName}' " ++
    s!"would be named '{String.ofList (backendSectionName bucketConfig.aliasName)}', which collides with another " ++
    "configured alias -- rename one of them"

/-- The body of the loop over the bucket-configs. -/
def pushSections (env : Environment) (store : Store) (contents : Text) (bucketConfig : BucketConfig) : Except String Text :=
  if store.containsAlias (backendSectionName bucketConfig.aliasName) then .error (collision bucketConfig)
  else .ok (contents ++ configSections env bucketConfig)

/-- How the steps on the disk end, with the texts of their errors. -/
structure Disk where
  createDirAll : Except String Unit
  write : Except String Unit
  setPermissions : Except String Unit

def Disk.createParent (disk : Disk) : Option String → Except String Unit
  | some parent => disk.createDirAll.mapError fun err => s!"failed to create {parent}: {err}"
  | none => .ok ()

/-- The contents that are written. `parent` is the directory of `path`, if it has one. -/
def writeSandboxedConfig (env : Environment) (disk : Disk) (store : Store) (path : String) (parent : Option String) :
    Except String Text := do
  disk.createParent parent
  let contents ← store.bucketConfigs.foldlM (pushSections env store) []
  disk.write.mapError fun err => s!"failed to write {path}: {err}"
  disk.setPermissions.mapError fun err => s!"failed to set permissions on {path}: {err}"
  return contents

/-- `RemoteTarget` -/
structure RemoteTarget where
  aliasName : Text
  keyPrefix : Option Text
deriving DecidableEq, Repr

def normalizePrefix (raw : Text) : Except String (Option Text) :=
  let trimmed := trimMatches (· == '/') raw
  if trimmed = [] then .ok none
  else if (trimmed.splitOn '/').contains ['.', '.'] then
    .error s!"invalid prefix '{String.ofList raw}': a '..' path segment is not allowed"
  else .ok (some (trimmed ++ ['/']))

namespace RemoteTarget

def parse (value : Text) (store : Store) : Except String RemoteTarget :=
  let (aliasName, rawPrefix) := (splitOnce [':'] value).getD (value, [])
  if store.containsAlias aliasName then do return ⟨aliasName, ← normalizePrefix rawPrefix⟩
  else .error s!"no bucket-config named '{String.ofList aliasName}'"

def bucketRoot (aliasName : Text) : RemoteTarget := ⟨aliasName, none⟩

def withDefaultPrefix (target : RemoteTarget) (defaultPrefix : Text) : Except String RemoteTarget :=
  match target.keyPrefix with
  | none => do return {target with keyPrefix := ← normalizePrefix defaultPrefix}
  | some _ => .ok target

def address (target : RemoteTarget) : Text :=
  match target.keyPrefix with
  | some keyPrefix => target.aliasName ++ ':' :: keyPrefix
  | none => target.aliasName ++ [':']

end RemoteTarget

end Pigeon.Rclone
