/-!
# Paths

A path is a list of names that starts at the root or at the current directory. Repeated slashes and
the name `.` do not count. The name `..` stays in a path, since what it leads to depends on which
directories there are.
-/

namespace Reckoner.Storage

structure Path where
  /-- The slashes in front; none where the path starts at the current directory. Two are kept apart
  from one, but lead to the same place. -/
  slashes : Nat
  names : List String
  deriving DecidableEq, Repr

namespace Path

def ofString (s : String) : Path :=
  let slashes := (s.toList.takeWhile (· == '/')).length
  { slashes := if 2 < slashes then 1 else slashes
    names := ((s.toList.splitBy fun a b => a != '/' && b != '/').filter fun name =>
      name != ['/'] && name != ['.']).map String.ofList }

def text (p : Path) : String :=
  if p.slashes = 0 && p.names.isEmpty then "."
  else "".pushn '/' p.slashes ++ "/".intercalate p.names

def child (p : Path) (name : String) : Path := { p with names := p.names ++ [name] }

end Path

inductive HomeError where
  /-- The path starts at the home directory of someone else. -/
  | unknown
  | nullCharacter
  deriving DecidableEq, Repr

/-- The path with a first name `~` replaced by the home directory. -/
def Path.expandHome (home : String) (p : Path) : Except HomeError Path :=
  match p.names with
  | first :: rest =>
    if p.slashes = 0 && first.toList.head? = some '~' then
      if first = "~" then
        let start := Path.ofString home
        .ok { start with names := start.names ++ rest }
      else if first.toList.contains '\x00' then .error .nullCharacter
      else .error .unknown
    else .ok p
  | [] => .ok p

end Reckoner.Storage
