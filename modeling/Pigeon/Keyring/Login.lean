import Pigeon.Library.Talk
import Pigeon.Keyring.Provider

/-! # Logging in to an IMAP server

The client connects, secures the connection and logs in. The server, and whoever sits between, may answer anything, at any time or
never. `LOGIN` is said only on a connection that a TLS handshake with the host has secured, and before that nothing depends on the
credentials.
-/
namespace Pigeon.Keyring

open Library

set_option autoImplicit false

inductive Capability where
  | imap4rev1
  | auth (mechanism : Text)
  | atom (name : Text)
deriving DecidableEq, Repr

inductive ResponseCode where
  | capabilities (list : List Capability)
  | other
deriving DecidableEq, Repr

inductive Response where
  | data (code : Option ResponseCode)
  | other
deriving DecidableEq, Repr

/-- What the client does on the connection; reading a response says nothing, but waits. -/
inductive Request where
  | connect (host : Text) (port : UInt16)
  | readResponse
  | startTls
  | handshake (host : Text) (acceptInvalidCerts : Bool)
  | login (email secret : Text)
  | logout
deriving DecidableEq, Repr

/-- An error, or success with the response that was read if there is one. -/
abbrev Reply := Except Text (Option Response)

abbrev Client := Talk Request (fun _ => Reply) (Except Text Unit)

def address (host : Text) (port : UInt16) : Text := host ++ ':' :: Nat.toDigits 10 port.toNat

def greetingLacksStarttls : Response → Bool
  | .data (some (.capabilities list)) =>
    !list.any fun
      | .atom name => name.map Char.toLower == "starttls".toList
      | _ => false
  | _ => false

def tlsModeHint (message : Text) : Option Text :=
  let lowered := message.map Char.toLower
  if "record overflow".toList <:+: lowered ∨ "wrong version number".toList <:+: lowered then
    some "the server sent plaintext, so it may expect STARTTLS; retry with --security starttls".toList
  else none

/-- The request, the text of its error, and what follows. -/
def attempt (request : Request) (failure : Text → Text) (rest : Option Response → Client) : Client :=
  .ask request fun
    | .error err => .done (.error (failure err))
    | .ok response => rest response

def andThen (first second : Client) : Client :=
  first.bind fun
    | .error err => .done (.error err)
    | .ok () => second

def readGreeting (host : Text) (port : UInt16) (rest : Response → Client) : Client :=
  attempt .readResponse (fun err => "failed to read greeting from ".toList ++ address host port ++ ": ".toList ++ err) fun
    | none => .done (.error ("connection to ".toList ++ address host port ++ " closed before greeting".toList))
    | some response => rest response

/-- The plaintext half: the downgrade guard. -/
def startTls (host : Text) (port : UInt16) : Client :=
  readGreeting host port fun greeting =>
    if greetingLacksStarttls greeting then
      .done (.error (address host port ++ (" does not offer STARTTLS; refusing to log in over plaintext " ++
        "(if it expects TLS from the first byte, use --security tls)").toList))
    else
      attempt .startTls (fun err => "STARTTLS with ".toList ++ address host port ++ " failed: ".toList ++ err) fun _ => .done (.ok ())

def handshakeError (host : Text) (port : UInt16) (security : ImapSecurity) (err : Text) : Text :=
  let message := "TLS handshake with ".toList ++ address host port ++ " failed: ".toList ++ err
  if security = .tls then
    match tlsModeHint message with
    | some hint => message ++ " -- ".toList ++ hint
    | none => message
  else message

def login (email secret : Text) : Client :=
  attempt (.login email secret) (fun err => "login failed: ".toList ++ err) fun _ => .done (.ok ())

/-- No greeting follows a STARTTLS negotiation, so only implicit TLS reads one. -/
def secureAndLogin (host : Text) (port : UInt16) (email secret : Text) (security : ImapSecurity) (acceptInvalidCerts : Bool) : Client :=
  attempt (.handshake host acceptInvalidCerts) (handshakeError host port security) fun _ =>
    match security with
    | .tls => readGreeting host port fun _ => login email secret
    | .startTls => login email secret

def connectAndLoginInner (host : Text) (port : UInt16) (email secret : Text) (security : ImapSecurity) (acceptInvalidCerts : Bool) :
    Client :=
  attempt (.connect host port) (fun err => "failed to connect to ".toList ++ address host port ++ ": ".toList ++ err) fun _ =>
    match security with
    | .tls => secureAndLogin host port email secret security acceptInvalidCerts
    | .startTls => andThen (startTls host port) (secureAndLogin host port email secret security acceptInvalidCerts)

/-- Silence past the deadline ends the talk, wherever it is. -/
def timeout (message : Text) : Client → Talk Request (fun _ => Option Reply) (Except Text Unit)
  | .done result => .done result
  | .ask request next =>
    .ask request fun
      | none => .done (.error message)
      | some reply => timeout message (next reply)

def connectAndLogin (host : Text) (port : UInt16) (email secret : Text) (security : ImapSecurity) (acceptInvalidCerts : Bool) :
    Talk Request (fun _ => Option Reply) (Except Text Unit) :=
  timeout ("timed out connecting to ".toList ++ address host port ++ " after 30s".toList)
    (connectAndLoginInner host port email secret security acceptInvalidCerts)

/-- The logout is best effort: the login succeeded by then. -/
def verifyLogin (host : Text) (port : UInt16) (email secret : Text) (security : ImapSecurity) (acceptInvalidCerts : Bool) :
    Talk Request (fun _ => Option Reply) (Except Text Unit) :=
  (connectAndLogin host port email secret security acceptInvalidCerts).bind fun
    | .error err => .done (.error err)
    | .ok () => .ask .logout fun _ => .done (.ok ())

/-! ## The client as one chain of attempts -/

theorem andThen_attempt (request : Request) (failure : Text → Text) (rest : Option Response → Client) (second : Client) :
    andThen (attempt request failure rest) second = attempt request failure fun response => andThen (rest response) second := by
  rw [andThen, attempt, Talk.bind, attempt]
  congr 1
  funext reply
  cases reply <;> rfl

theorem andThen_readGreeting (host : Text) (port : UInt16) (rest : Response → Client) (second : Client) :
    andThen (readGreeting host port rest) second = readGreeting host port fun greeting => andThen (rest greeting) second := by
  rw [readGreeting, andThen_attempt, readGreeting]
  congr 1
  funext response
  cases response <;> rfl

abbrev Exchange := Talk.Exchange fun _ : Request => Option Reply

/-- The request succeeded. -/
def Accepted (request : Request) (exchange : Exchange) : Prop :=
  exchange.1 = request ∧ ∃ response, exchange.2 = some (.ok response)

/-- A greeting was read that does not rule out STARTTLS. -/
def Greeted (exchange : Exchange) : Prop :=
  exchange.1 = .readResponse ∧ ∃ greeting, exchange.2 = some (.ok (some greeting)) ∧ greetingLacksStarttls greeting = false

section Guarded

open Talk

variable {message : Text} {opens : Exchange → Prop} {guarded : Request → Prop} {request : Request}
  {failure : Text → Text}

theorem guarded_attempt {rest : Option Response → Client} (hRequest : ¬ guarded request)
    (hRest : ∀ response, ¬ opens ⟨request, some (.ok response)⟩ → (timeout message (rest response)).Guarded opens guarded) :
    (timeout message (attempt request failure rest)).Guarded opens guarded := by
  rw [attempt, timeout, Talk.Guarded]
  refine ⟨hRequest, fun reply hClosed => ?_⟩
  match reply, hClosed with
  | none, _ => trivial
  | some (.error err), _ => trivial
  | some (.ok response), hClosed => exact hRest response hClosed

theorem guarded_readGreeting {host : Text} {port : UInt16} {rest : Response → Client} (hRequest : ¬ guarded .readResponse)
    (hRest : ∀ greeting, ¬ opens ⟨.readResponse, some (.ok (some greeting))⟩ → (timeout message (rest greeting)).Guarded opens guarded) :
    (timeout message (readGreeting host port rest)).Guarded opens guarded := by
  refine guarded_attempt hRequest fun response hClosed => ?_
  cases response with
  | none => trivial
  | some greeting => exact hRest greeting hClosed

variable {host : Text} {port : UInt16} {email secret : Text} {security : ImapSecurity} {acceptInvalidCerts : Bool}

theorem guarded_secureAndLogin (hRead : ¬ guarded .readResponse) (hHandshake : ¬ guarded (.handshake host acceptInvalidCerts))
    (hLogin : ∀ response, ¬ opens ⟨.handshake host acceptInvalidCerts, some (.ok response)⟩ → ¬ guarded (.login email secret)) :
    (timeout message (secureAndLogin host port email secret security acceptInvalidCerts)).Guarded opens guarded := by
  refine guarded_attempt hHandshake fun response hClosed => ?_
  cases security with
  | tls => exact guarded_readGreeting hRead fun greeting _ => guarded_attempt (hLogin response hClosed) fun _ _ => trivial
  | startTls => exact guarded_attempt (hLogin response hClosed) fun _ _ => trivial

/-- What has to be shown of every request, each where it can come first. -/
theorem guarded_verifyLogin (hConnect : ¬ guarded (.connect host port)) (hRead : ¬ guarded .readResponse)
    (hStart : ∀ greeting, security = .startTls → greetingLacksStarttls greeting = false →
      ¬ opens ⟨.readResponse, some (.ok (some greeting))⟩ → ¬ guarded .startTls)
    (hHandshake : (security = .startTls → ∃ response, ¬ opens ⟨.startTls, some (.ok response)⟩) →
      ¬ guarded (.handshake host acceptInvalidCerts))
    (hLogin : ∀ response, ¬ opens ⟨.handshake host acceptInvalidCerts, some (.ok response)⟩ → ¬ guarded (.login email secret))
    (hLogout : ¬ guarded .logout) :
    (verifyLogin host port email secret security acceptInvalidCerts).Guarded opens guarded := by
  refine Guarded.bind (guarded_attempt hConnect fun _ _ => ?_) fun result => ?_
  · cases security with
    | tls => exact guarded_secureAndLogin hRead (hHandshake fun h => ImapSecurity.noConfusion h) hLogin
    | startTls =>
      dsimp only
      rw [startTls, andThen_readGreeting]
      refine guarded_readGreeting hRead fun greeting hGreeting => ?_
      split
      · trivial
      · rename_i hOffers
        rw [andThen_attempt]
        refine guarded_attempt (hStart greeting rfl (Bool.eq_false_iff.mpr hOffers) hGreeting) fun response hStarted => ?_
        exact guarded_secureAndLogin hRead (hHandshake fun _ => ⟨response, hStarted⟩) hLogin
  · cases result with
    | error err => trivial
    | ok value => exact ⟨hLogout, fun _ _ => trivial⟩

end Guarded

section Alike

open Talk

variable {message : Text} {opens : Exchange → Prop} {request : Request} {failure : Text → Text}

theorem alike_attempt {rest other : Option Response → Client}
    (hRest : ∀ response, ¬ opens ⟨request, some (.ok response)⟩ → Alike opens (timeout message (rest response)) (timeout message (other response))) :
    Alike opens (timeout message (attempt request failure rest)) (timeout message (attempt request failure other)) := by
  rw [attempt, attempt, timeout, timeout]
  refine .ask request _ _ fun reply hClosed => ?_
  match reply, hClosed with
  | none, _ => exact .done _
  | some (.error err), _ => exact .done _
  | some (.ok response), hClosed => exact hRest response hClosed

/-- Up to the handshake two logins with other credentials are the same talk. -/
theorem alike_secureAndLogin {host : Text} {port : UInt16} (email secret otherEmail otherSecret : Text) (security : ImapSecurity)
    {acceptInvalidCerts : Bool} (hOpens : ∀ response, opens ⟨.handshake host acceptInvalidCerts, some (.ok response)⟩) :
    Alike opens (timeout message (secureAndLogin host port email secret security acceptInvalidCerts))
      (timeout message (secureAndLogin host port otherEmail otherSecret security acceptInvalidCerts)) :=
  alike_attempt fun response hClosed => absurd (hOpens response) hClosed

theorem alike_verifyLogin (host : Text) (port : UInt16) (email secret otherEmail otherSecret : Text) (security : ImapSecurity)
    (acceptInvalidCerts : Bool) :
    Alike (Accepted (.handshake host acceptInvalidCerts)) (verifyLogin host port email secret security acceptInvalidCerts)
      (verifyLogin host port otherEmail otherSecret security acceptInvalidCerts) := by
  have hOpens : ∀ response, Accepted (.handshake host acceptInvalidCerts) ⟨.handshake host acceptInvalidCerts, some (.ok response)⟩ :=
    fun response => ⟨rfl, response, rfl⟩
  refine Alike.bind (alike_attempt fun _ _ => ?_) fun result => .refl _
  cases security with
  | tls => exact alike_secureAndLogin _ _ _ _ _ hOpens
  | startTls =>
    dsimp only
    rw [startTls, andThen_readGreeting, andThen_readGreeting, readGreeting, readGreeting]
    refine alike_attempt fun response _ => ?_
    cases response with
    | none => exact .refl _
    | some greeting =>
      dsimp only
      split
      · exact .refl _
      · rw [andThen_attempt, andThen_attempt]
        exact alike_attempt fun _ _ => alike_secureAndLogin _ _ _ _ _ hOpens

end Alike

section Reports

open Talk

variable {message : Text} {good : Exchange → Prop} {request : Request} {failure : Text → Text}

/-- `verify_login` returns a success. -/
def Verified (result : Except Text Unit) : Prop := result = .ok ()

instance (result : Except Text Unit) : Decidable (Verified result) :=
  match result with
  | .ok () => .isTrue rfl
  | .error _ => .isFalse nofun

theorem reports_error (err : Text) : (timeout message (.done (.error err))).Reports good Verified := .done _ nofun

theorem reports_attempt {rest : Option Response → Client} (hRequest : ∀ reply, ¬ good ⟨request, reply⟩)
    (hRest : ∀ response, (timeout message (rest response)).Reports good Verified) :
    (timeout message (attempt request failure rest)).Reports good Verified := by
  rw [attempt, timeout]
  refine .ask request _ (fun reply hGood => absurd hGood (hRequest reply)) fun reply _ => ?_
  match reply with
  | none => exact .done _ nofun
  | some (.error err) => exact .done _ nofun
  | some (.ok response) => exact hRest response

theorem reports_login (email secret : Text) : (timeout message (login email secret)).Reports (Accepted (.login email secret)) Verified := by
  rw [login, attempt, timeout]
  refine .ask _ _ (fun reply hGood peer past => ?_) fun reply hOther => ?_
  · obtain ⟨-, response, rfl⟩ := hGood
    rfl
  · match reply, hOther with
    | none, _ => exact .done _ nofun
    | some (.error err), _ => exact .done _ nofun
    | some (.ok response), hOther => exact absurd ⟨rfl, response, rfl⟩ hOther

theorem not_accepted {other : Request} (h : other ≠ request) (reply : Option Reply) : ¬ Accepted request ⟨other, reply⟩ := fun hGood => h hGood.1

theorem reports_readGreeting {host : Text} {port : UInt16} {email secret : Text} {rest : Response → Client}
    (hRest : ∀ greeting, (timeout message (rest greeting)).Reports (Accepted (.login email secret)) Verified) :
    (timeout message (readGreeting host port rest)).Reports (Accepted (.login email secret)) Verified := by
  refine reports_attempt (not_accepted nofun) fun response => ?_
  cases response with
  | none => exact reports_error _
  | some greeting => exact hRest greeting

theorem reports_secureAndLogin (host : Text) (port : UInt16) (email secret : Text) (security : ImapSecurity) (acceptInvalidCerts : Bool) :
    (timeout message (secureAndLogin host port email secret security acceptInvalidCerts)).Reports (Accepted (.login email secret)) Verified := by
  refine reports_attempt (not_accepted nofun) fun response => ?_
  cases security with
  | tls => exact reports_readGreeting fun greeting => reports_login email secret
  | startTls => exact reports_login email secret

theorem reports_verifyLogin (host : Text) (port : UInt16) (email secret : Text) (security : ImapSecurity) (acceptInvalidCerts : Bool) :
    (verifyLogin host port email secret security acceptInvalidCerts).Reports (Accepted (.login email secret)) Verified := by
  refine Reports.bind (reports_attempt (not_accepted nofun) fun response => ?_) (fun result hResult peer past => ?_) fun result hResult => ?_
  · cases security with
    | tls => exact reports_secureAndLogin host port email secret _ acceptInvalidCerts
    | startTls =>
      dsimp only
      rw [startTls, andThen_readGreeting]
      refine reports_readGreeting fun greeting => ?_
      split
      · exact reports_error _
      · rw [andThen_attempt]
        exact reports_attempt (not_accepted nofun) fun response => reports_secureAndLogin host port email secret _ acceptInvalidCerts
  · rw [hResult]
    rfl
  · cases result with
    | error err => exact .done _ nofun
    | ok value => exact absurd rfl hResult

end Reports

end Pigeon.Keyring
