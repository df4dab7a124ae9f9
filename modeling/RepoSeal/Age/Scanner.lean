import RepoSeal.Bytes

/-!
# RepoSeal — scanning a header as it comes in

A header is read from its file a few bytes at a time, never more than the rule in hand needs, because
what follows it is content. So it matters how far the reading has gone: a rule is refused by the bytes
that have been read, and asks for more only while those still fit. A scan ends in success, in refusal,
upon which another rule may be tried on the same bytes, or because the file ends too early.
-/

namespace RepoSeal.Age

structure Place where
  /-- The bytes from here to the end of the file. -/
  rest : Bytes
  /-- How many of them have been read already. -/
  ahead : Nat

inductive Scan (α : Type)
  | done (result : α) (place : Place)
  /-- The rule does not fit; so many bytes from the starting place have been read. -/
  | refused (ahead : Nat)
  | ended

abbrev Scanner (α : Type) := Place → Scan α

namespace Place

/-- The place so many bytes further on. -/
def skip (p : Place) (n : Nat) : Place := ⟨p.rest.drop n, p.ahead - n⟩

/-- The number of bytes read, if reading goes on to `n` bytes from here. -/
def reach (p : Place) (n : Nat) : Nat := max p.ahead n

end Place

namespace Scanner

variable {α β : Type}

/-- One rule after the other. -/
def andThen (a : Scanner α) (f : α → Scanner β) : Scanner β := fun p =>
  match a p with
  | .done x q =>
    match f x q with
    | .done y r => .done y r
    | .refused ahead => .refused (p.rest.length - q.rest.length + ahead)
    | .ended => .ended
  | .refused ahead => .refused ahead
  | .ended => .ended

instance : Monad Scanner where
  pure x := fun p => .done x p
  bind := andThen

/-- The second rule, if the first one is refused. -/
def orElse (a b : Scanner α) : Scanner α := fun p =>
  match a p with
  | .refused ahead => b { p with ahead := p.reach ahead }
  | s => s

def refuse : Scanner α := fun p => .refused p.ahead

/-- The next `n` bytes. -/
def take (n : Nat) : Scanner Bytes := fun p =>
  if n ≤ p.rest.length then .done (p.rest.take n) { p.skip n with ahead := p.reach n - n }
  else .ended

def exactly (b : Bytes) : Scanner Unit := fun p =>
  let known := (p.rest.take p.ahead).take b.length
  if known ≠ b.take known.length then .refused p.ahead
  else if p.rest.length < b.length then .ended
  else if p.rest.take b.length = b then
    .done () { p.skip b.length with ahead := p.reach b.length - b.length }
  else .refused (p.reach b.length)

/-- As many bytes of a kind as there are, but at most `most`, and at least `least`. The byte behind
them is read too, unless there are `most` of them. -/
def run (least most : Nat) (kind : UInt8 → Bool) : Scanner Bytes := fun p =>
  let found := (p.rest.takeWhile kind).take most
  let n := found.length
  if n < most && n = p.rest.length then .ended
  else
    let ahead := p.reach (if n < most then n + 1 else n)
    if n < least then .refused ahead
    else .done found { p.skip n with ahead := ahead - n }

/-- All bytes of a kind up to the first other one; there must be one at least. -/
def run1 (kind : UInt8 → Bool) : Scanner Bytes := fun p => run 1 (p.rest.length + 1) kind p

def lineFeed : Scanner Unit := exactly [10]

/-- The rule again and again, until it is refused. -/
def many (a : Scanner α) (p : Place) : Scan (List α) :=
  match a p with
  | .done x q =>
    if q.rest.length < p.rest.length then
      match many a q with
      | .done xs r => .done (x :: xs) r
      | .refused ahead => .refused (p.rest.length - q.rest.length + ahead)
      | .ended => .ended
    else .refused p.ahead
  | .refused ahead => .done [] { p with ahead := p.reach ahead }
  | .ended => .ended
termination_by p.rest.length

def many1 (a : Scanner α) : Scanner (List α) := do
  let x ← a
  let xs ← many a
  return x :: xs

/-- The rule once or more, with a separator in between. -/
def separated (separator : Scanner Unit) (a : Scanner α) : Scanner (List α) := do
  let x ← a
  let xs ← many (do separator; a)
  return x :: xs

/-- What the rule gives, or nothing if it is refused. -/
def optional (a : Scanner α) : Scanner (Option α) :=
  orElse (some <$> a) (pure none)

/-- What the rule gives, if `f` accepts it. -/
def filterMap (f : α → Option β) (a : Scanner α) : Scanner β := do
  match f (← a) with
  | some y => pure y
  | none => refuse

end Scanner

end RepoSeal.Age
