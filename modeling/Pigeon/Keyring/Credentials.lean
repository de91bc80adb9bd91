import Pigeon.Library.Text

/-! # Secrets from the environment

A variable that is named after an alias is used in place of the secret that is stored for it.
-/
namespace Pigeon.Keyring

open Library

set_option autoImplicit false

/-- The variables that are set, to what is text. -/
abbrev Environment : Type := Text → Option Text

def envVarChar (ch : Char) : Char :=
  let upper := ch.toUpper
  if upper.isAlphanum || upper == '_' then upper else '_'

def envVarName (aliasName : Text) : Text := "PIGEON_SECRET_".toList ++ aliasName.map envVarChar

def resolveSecret (env : Environment) (aliasName stored : Text) : Text := (env (envVarName aliasName)).getD stored

end Pigeon.Keyring
