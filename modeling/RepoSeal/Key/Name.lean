import RepoSeal.Error

/-!
# RepoSeal — key names

A repository has one default key, without a name, and any number of named keys. A name is also the
name of a file and of a directory, so it is short and made of letters, digits, hyphens and
underscores; `default` is kept for the key without a name.
-/

namespace RepoSeal

/-- The name under which the default key is shown and filed. -/
def defaultKeyName : String := "default"

/-- The most bytes that a key name may have. -/
def keyNameMaxLength : Nat := 128

/-- Whether a character may stand in a key name. -/
def isKeyNameChar (c : Char) : Bool :=
  ('A' ≤ c && c ≤ 'Z') || ('a' ≤ c && c ≤ 'z') || ('0' ≤ c && c ≤ '9') || c == '-' || c == '_'

/-- What is wrong with a text as a key name, the first flaw if there are several. -/
def keyNameFlaw (name : String) : Option NameFlaw :=
  if name.isEmpty then some .empty
  else if name = defaultKeyName then some .reserved
  else if !name.toList.all isKeyNameChar then some .characters
  else if keyNameMaxLength < name.utf8ByteSize then some .tooLong
  else none

structure KeyName where
  text : String
  valid : keyNameFlaw text = none
deriving DecidableEq

namespace KeyName

/-- The name with a given text, or the flaw of the text. -/
def ofText (text : String) : Except NameFlaw KeyName :=
  match h : keyNameFlaw text with
  | none => .ok ⟨text, h⟩
  | some flaw => .error flaw

/-- The name with a given text; a flaw is an error of its own. -/
def parse (text : String) : Except Error KeyName :=
  match ofText text with
  | .ok name => .ok name
  | .error flaw => .error (.invalidKeyName text flaw)

theorem ofText_text (name : KeyName) : ofText name.text = .ok name := by
  unfold ofText
  split
  · rfl
  · rename_i h; rw [name.valid] at h; cases h

theorem ofText_eq_ok {text : String} {name : KeyName} : ofText text = .ok name ↔ name.text = text := by
  constructor
  · intro h
    unfold ofText at h
    split at h
    · cases h
      rfl
    · cases h
  · rintro rfl
    exact name.ofText_text

end KeyName

/-- How a key is shown: by its name, or as the default key. -/
def shownKeyName (name : Option KeyName) : String :=
  match name with
  | some n => n.text
  | none => defaultKeyName

end RepoSeal
