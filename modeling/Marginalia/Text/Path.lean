import Marginalia.Text.Bytes

/-
  This file defines paths with slashes between their parts: how
  they are joined, and their shortest form.

  Key definitions include:
    * `Path.isAbsolute`
    * `Path.join`
    * `Path.parent`
    * `Path.normalize`, `Path.resolve`
    * `Path.fileName`
-/

namespace Marginalia

namespace Path

/- The path begins at the root. -/
def isAbsolute : Bytes → Bool
| Ascii.slash :: _ => true
| _ => false

/-
  A path below a directory.  One slash comes between the two
  unless the directory ends in one.
-/
def join (directory path : Bytes) : Bytes :=
  if isAbsolute path then path
  else if directory.isEmpty || directory.getLast? == some Ascii.slash then
    directory ++ path
  else directory ++ Ascii.slash :: path

/- The parts of a path between its slashes. -/
def parts : Bytes → List Bytes
| [] => [[]]
| b :: rest =>
    if b = Ascii.slash then
      [] :: parts rest
    else
      match parts rest with
      | [] => [[b]]
      | part :: more => (b :: part) :: more

/- The directory that a path lies in. -/
def parent (path : Bytes) : Bytes :=
  let reversed := path.reverse
  let front := reversed.dropWhile (· != Ascii.slash)
  match front.dropWhile (· == Ascii.slash), front with
  | [], [] => []
  | [], _ :: _ => [Ascii.slash]
  | rest, _ => rest.reverse

/- The part that stands for the directory itself. -/
def here : Bytes :=
  [Ascii.dot]

/- The part that stands for the directory above. -/
def above : Bytes :=
  [Ascii.dot, Ascii.dot]

/-
  Follow the parts of a path, with the directories entered so
  far in reverse.  A step up leaves the last directory entered;
  at the root it leads nowhere.
-/
def follow (absolute : Bool) : List Bytes → List Bytes → List Bytes
| entered, [] => entered
| entered, part :: rest =>
    if part.isEmpty || part == here then follow absolute entered rest
    else if part == above then
      match entered with
      | [] => follow absolute (if absolute then [] else [above]) rest
      | last :: before =>
          if last == above then
            follow absolute (above :: last :: before) rest
          else follow absolute before rest
    else follow absolute (part :: entered) rest

/-
  The shortest form of what a path leads to from a root, which
  is empty for a relative path: empty parts, parts that stay in
  place and steps up that can be avoided are left out.  It ends
  in a slash if the path ended in one, or in a part that has
  gone, unless its last part is a step up.
-/
def normalizeFrom (root path : Bytes) : Bytes :=
  let pieces := parts path
  match follow (!root.isEmpty) [] pieces with
  | [] => if root.isEmpty then here else root
  | last :: before =>
      let tail := pieces.getLast?.getD []
      let isOpen := tail.isEmpty || tail == here || tail == above
      root ++ Bytes.join [Ascii.slash] (last :: before).reverse ++
        (if isOpen && last != above then [Ascii.slash] else [])

/- The path is a row of slashes; such a row is a root of its own. -/
def isRoot (path : Bytes) : Bool :=
  path.all (· == Ascii.slash)

/-
  The shortest form of a path.  A root stays as it is, and so
  does an empty path.
-/
def normalize (path : Bytes) : Bytes :=
  if isRoot path then path
  else if isAbsolute path then normalizeFrom [Ascii.slash] path
  else normalizeFrom [] path

/-
  The shortest form of a path that starts from a directory if it
  is relative.  A directory that is a root stays as it is.
-/
def resolve (directory path : Bytes) : Bytes :=
  if isAbsolute path || directory.isEmpty then normalize path
  else if isRoot directory then normalizeFrom directory path
  else normalize (join directory path)

/- The name by which a path is opened: it ends before a null byte. -/
def fileName (path : Bytes) : Bytes :=
  path.takeWhile (· != 0)

end Path

end Marginalia
