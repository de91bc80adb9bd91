import Pigeon.Library.Text

/-! # Mail providers and what they imply for the connection -/
namespace Pigeon.Keyring

open Library

set_option autoImplicit false

/-- There is no plaintext variant: `LOGIN` never goes over an unencrypted socket. -/
inductive ImapSecurity where
  | tls
  | startTls
deriving DecidableEq, Repr

inductive Provider where
  | gmail
  | fastmail
  | icloud
  | proton
  | custom
deriving DecidableEq, Repr

namespace Provider

def domainTable : List (Text × Provider) :=
  [("gmail.com".toList, gmail), ("googlemail.com".toList, gmail), ("fastmail.com".toList, fastmail), ("fastmail.fm".toList, fastmail),
    ("icloud.com".toList, icloud), ("me.com".toList, icloud), ("mac.com".toList, icloud)]

def detect (email : Text) : Option Provider :=
  let domain := ((Text.rsplitOnce '@' email).map Prod.snd).getD email |>.map Char.toLower
  (domainTable.find? fun entry => entry.1 == domain).map Prod.snd

def defaultHostPort : Provider → Option (Text × UInt16)
  | gmail => some ("imap.gmail.com".toList, 993)
  | fastmail => some ("imap.fastmail.com".toList, 993)
  | icloud => some ("imap.mail.me.com".toList, 993)
  | proton => some ("127.0.0.1".toList, 1143)
  | custom => none

def defaultSecurity (port : UInt16) : Provider → ImapSecurity
  | gmail | fastmail | icloud => .tls
  | proton => .startTls
  | custom => if port = 143 then .startTls else .tls

def acceptsInvalidCerts (provider : Provider) : Bool := provider == proton

def name : Provider → Text
  | gmail => "gmail".toList
  | fastmail => "fastmail".toList
  | icloud => "icloud".toList
  | proton => "proton".toList
  | custom => "custom".toList

end Provider

def resolveHostPort (provider : Provider) (host : Option Text) (port : Option UInt16) : Except Text (Text × UInt16) :=
  let defaults := provider.defaultHostPort
  match host.or (defaults.map Prod.fst) with
  | none => .error ("--host is required for provider '".toList ++ provider.name ++ "'".toList)
  | some host => .ok (host, (port.or (defaults.map Prod.snd)).getD 993)

/-- What to persist: nothing when the choice is the provider's default. -/
def storedSecurity (provider : Provider) (port : UInt16) (chosen : ImapSecurity) : Option ImapSecurity :=
  if chosen ≠ provider.defaultSecurity port then some chosen else none

/-- `Identity::security` -/
def effectiveSecurity (provider : Provider) (port : UInt16) (stored : Option ImapSecurity) : ImapSecurity :=
  stored.getD (provider.defaultSecurity port)

@[simp] theorem effectiveSecurity_storedSecurity (provider : Provider) (port : UInt16) (chosen : ImapSecurity) :
    effectiveSecurity provider port (storedSecurity provider port chosen) = chosen := by
  rw [effectiveSecurity, storedSecurity]
  split
  · rfl
  · rename_i hDefault
    exact (not_not.mp hDefault).symm

end Pigeon.Keyring
