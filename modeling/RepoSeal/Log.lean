import RepoSeal.Bytes

/-!
# RepoSeal — log events

Operations report what happened as events, oldest first, next to their result. Which of them are
written and in which form is decided where a command runs.
-/

namespace RepoSeal

/-- How much an event matters, the most important level first. -/
inductive LogLevel
  | error
  | warn
  | info
  | debug
  | trace
deriving DecidableEq, Repr

/-- The position of a level: a filter at some level lets through what is not beyond it. -/
def LogLevel.rank : LogLevel → Nat
  | error => 1
  | warn => 2
  | info => 3
  | debug => 4
  | trace => 5

inductive LogValue
  | text (s : String)
  | number (n : Nat)
  | flag (b : Bool)
deriving DecidableEq, Repr

/-- The part of the program that an event comes from. -/
inductive LogOrigin
  | command
  | config
  | codec
  | fields
  | keys
  | identity
  | wrapping
  | store
deriving DecidableEq, Repr

/-- The name under which filters and log lines know a part of the program. -/
def LogOrigin.target : LogOrigin → String
  | command => "git_crypt"
  | config => "gitcrypt_core::config"
  | codec => "gitcrypt_crypto::codec"
  | fields => "gitcrypt_crypto::fields"
  | keys => "gitcrypt_crypto::key"
  | identity => "gitcrypt_keys::identity"
  | wrapping => "gitcrypt_keys::wrap"
  | store => "gitcrypt_keys::store"

structure LogEvent where
  level : LogLevel
  origin : LogOrigin
  message : String
  fields : List (String × LogValue) := []
deriving DecidableEq, Repr

abbrev Log := List LogEvent

end RepoSeal
