import RepoSeal.Bytes

/-!
# RepoSeal — what can be wrong with an age file

Each way in which decrypting an age file fails, with its wording.
-/

namespace RepoSeal.Age

/-- Why a recipient or an identity is refused. -/
inductive KeyFlaw
  /-- The text is not Bech32. -/
  | encoding
  /-- The text is one for something else. -/
  | kind
  /-- A recipient does not have the length of a public key. -/
  | recipientLength
  /-- An identity does not have the length of a private key. -/
  | identityLength
deriving DecidableEq, Repr

def KeyFlaw.text : KeyFlaw → String
  | encoding => "invalid Bech32 encoding"
  | kind => "incorrect HRP"
  | recipientLength => "incorrect pubkey length"
  | identityLength => "incorrect identity length"

/-- Why an age file cannot be decrypted. -/
inductive Flaw
  /-- The data ends within the header or the nonce. -/
  | short
  /-- The header cannot be understood. -/
  | header
  /-- The header is of another version, or does not follow the rules of this one. -/
  | version
  /-- The header is not the one that was written. -/
  | headerTag
  /-- The file needs a passphrase. -/
  | passphrase
  /-- The identity is not one of the recipients. -/
  | noMatch
  /-- There is no content at all. -/
  | truncated
  /-- A piece of the content is not the one that was written. -/
  | content
  /-- There is more content behind the last piece. -/
  | trailing
deriving DecidableEq, Repr

def Flaw.text : Flaw → String
  | short => "failed to fill whole buffer"
  | header => "Header is invalid"
  | version => "Unknown age format.\nHave you tried upgrading to the latest version?"
  | headerTag => "Header MAC is invalid"
  | passphrase => "passphrase-protected blobs are not supported"
  | noMatch => "No matching keys found"
  | truncated => "age file is truncated"
  | content => "decryption error"
  | trailing => "last chunk has been processed"

end RepoSeal.Age
